import Maloader.Loader.Turns
import Maloader.Segment.Image

/-!
# Where the segments are copied to

The run of the loader on any file, in any order of its commands: what is reserved for the image and
what is copied there.

* `ensureImageMapping64_cases`: what a call can do; `keeps_execCommand`: what other commands than
  segments leave alone; `recs_execCommand`, `trace_prefix_execCommand`: what only grows.
* `Reserved`, `mappedReserved_of_mem_loaderTurns`: the mapping that every turn finds.
* **`segment_present_iff`**: when the bytes of a segment are in the image.
* **`copy_inside_iff`**: when a copy stays in the mapping.
-/

namespace Maloader

open ByteLib WalkLib

variable (E : Env) (f : File)

/-! ## One call, one command -/

/-- **A call of `ensure_image_mapping_64`** finds the image mapped, has nothing to map, is refused, or
maps it. -/
theorem ensureImageMapping64_cases (c : MachContext) :
    (c.imgAddr ≠ 0#64 ∧ ensureImageMapping64 E f c = (0, c)) ∨
      (c.imgAddr = 0#64 ∧ ((hull f).1 = uint64Max ∨ (hull f).2 ≤ (hull f).1) ∧
        ensureImageMapping64 E f c = (-1, c)) ∨
      (c.imgAddr = 0#64 ∧ (hull f).1 ≠ uint64Max ∧ (hull f).1 < (hull f).2 ∧
        E.mmap c.mmaps (hull f).1 (mapSize f) = none ∧ ensureImageMapping64 E f c =
          (-1, { c with mmaps := c.mmaps ++ [⟨(hull f).1, mapSize f, none⟩] })) ∨
      (c.imgAddr = 0#64 ∧ (hull f).1 ≠ uint64Max ∧ (hull f).1 < (hull f).2 ∧
        ∃ B, E.mmap c.mmaps (hull f).1 (mapSize f) = some B ∧
          ensureImageMapping64 E f c = (0, c.mapped f B)) := by
  by_cases hi : c.imgAddr = 0#64
  · unfold ensureImageMapping64
    rw [if_neg (not_not.mpr hi)]
    by_cases hhull : (hull f).1 = uint64Max ∨ (hull f).2 ≤ (hull f).1
    · exact .inr (.inl ⟨hi, hhull, if_pos hhull⟩)
    · have hne : (hull f).1 ≠ uint64Max := fun he => hhull (.inl he)
      have hlt : (hull f).1 < (hull f).2 := BitVec.not_le.mp fun hle => hhull (.inr hle)
      simp only [if_neg hhull]
      refine .inr (.inr ?_)
      cases hmap : E.mmap c.mmaps (hull f).1 (alignMemory ((hull f).2 - (hull f).1) 0x1000#64) with
      | none => exact .inl ⟨hi, hne, hlt, hmap, rfl⟩
      | some B => exact .inr ⟨hi, hne, hlt, B, hmap, rfl⟩
  · exact .inl ⟨hi, ensureImageMapping64_of_ne E f hi⟩

theorem ensureImageMapping64_log (c : MachContext) :
    (ensureImageMapping64 E f c).2.segments = c.segments ∧
      (ensureImageMapping64 E f c).2.trace = c.trace := by
  obtain ⟨-, he⟩ | ⟨-, -, he⟩ | ⟨-, -, -, -, he⟩ | ⟨-, -, -, B, -, he⟩ :=
    ensureImageMapping64_cases E f c <;> (rw [he]; exact ⟨rfl, rfl⟩)

/-- The event is a copy of a segment. -/
def Event.isCopy : Event → Bool
  | .copy _ _ _ => true
  | _ => false

theorem keeps_execCommand (c : MachContext) {cmd : Command} (hcmd : ∀ seg, cmd ≠ .segment64 seg) :
    let c' := execCommand E f c cmd
    c'.imgAddr = c.imgAddr ∧ c'.vAddr = c.vAddr ∧ c'.mmaps = c.mmaps ∧ c'.segments = c.segments ∧
      c'.trace.filter Event.isCopy = c.trace.filter Event.isCopy := by
  cases cmd with
  | segment64 seg => exact absurd rfl (hcmd seg)
  | dyldInfo info =>
    simp only [execCommand, loadDyldInfo_eq, and_self]
  | symtab symtab =>
    simp only [execCommand, loadSymtab_eq, and_self]
  | loadDylib name => exact ⟨rfl, rfl, rfl, rfl, rfl⟩
  | dyldChainedFixups fixups =>
    have himage : dumpChainedFixups E f c fixups.dataoff fixups.datasize =
        c.withImage (dumpChainedFixups E f c fixups.dataoff fixups.datasize) :=
      dumpChainedFixups_withImage E f c c fixups.dataoff fixups.datasize
    obtain ⟨himg, hsegs⟩ := atImage_dumpChainedFixups E f c fixups.dataoff fixups.datasize
    have hv : (dumpChainedFixups E f c fixups.dataoff fixups.datasize).vAddr = c.vAddr := by
      rw [himage]
      rfl
    have hm : (dumpChainedFixups E f c fixups.dataoff fixups.datasize).mmaps = c.mmaps := by
      rw [himage]
      rfl
    refine ⟨himg, hv, hm, hsegs, ?_⟩
    have hstart : c.resetCounts.trace.filter Event.isCopy = c.trace.filter Event.isCopy := rfl
    refine dumpChainedFixups_inv
      (P := fun c' => c'.trace.filter Event.isCopy = c.trace.filter Event.isCopy) hstart ?_
    intro c' segment loc raw h
    rw [chainedEntry_eq]
    dsimp only
    rw [List.filter_append, h]
    cases fixupValue E f fixups.dataoff (chainedFixupsHeader f fixups.dataoff) c'.imgAddr raw <;>
      simp [Event.isCopy]
  | other => exact ⟨rfl, rfl, rfl, rfl, rfl⟩

theorem segments_execSegment (c : MachContext) (seg : SegmentCommand64) :
    (execSegment E f c seg).segments =
      c.segments.push (segmentRecord (copySegment f (ensureImageMapping64 E f c).2 seg) seg) := by
  have hcopy : (copySegment f (ensureImageMapping64 E f c).2 seg).segments = c.segments := by
    rw [← (ensureImageMapping64_log E f c).1, copySegment]
    split_ifs <;> rfl
  rw [execSegment, hcopy]

theorem recs_execCommand (c : MachContext) (cmd : Command) :
    c.segments.recs <+: (execCommand E f c cmd).segments.recs := by
  by_cases hcmd : ∃ seg, cmd = .segment64 seg
  · obtain ⟨seg, rfl⟩ := hcmd
    rw [execCommand, segments_execSegment, SegmentTable.recs_push]
    split_ifs
    · exact List.prefix_append _ _
    · exact List.prefix_rfl
  · rw [(keeps_execCommand E f c fun seg he => hcmd ⟨seg, he⟩).2.2.2.1]

theorem trace_execCommand (c : MachContext) {cmd : Command}
    (hcmd : ∀ fixups, cmd ≠ .dyldChainedFixups fixups) :
    ∃ copies : List Event, (execCommand E f c cmd).trace = c.trace ++ copies ∧
      ∀ ev ∈ copies, ev.isCopy := by
  have hnone : ∃ copies : List Event, c.trace = c.trace ++ copies ∧ ∀ ev ∈ copies, ev.isCopy :=
    ⟨[], (List.append_nil _).symm, by simp⟩
  cases cmd with
  | segment64 seg =>
    have htrace : (execCommand E f c (.segment64 seg)).trace =
        (copySegment f (ensureImageMapping64 E f c).2 seg).trace := rfl
    rw [htrace, copySegment]
    split_ifs
    · exact ⟨_, congrArg (· ++ _) (ensureImageMapping64_log E f c).2, by simp [Event.isCopy]⟩
    · rwa [(ensureImageMapping64_log E f c).2]
  | dyldInfo info => rwa [execCommand, loadDyldInfo_eq]
  | symtab symtab => rwa [execCommand, loadSymtab_eq]
  | dyldChainedFixups fixups => exact absurd rfl (hcmd fixups)
  | loadDylib name => exact hnone
  | other => exact hnone

theorem trace_prefix_execCommand (c : MachContext) (cmd : Command) :
    c.trace <+: (execCommand E f c cmd).trace := by
  by_cases hcmd : ∃ fixups, cmd = .dyldChainedFixups fixups
  · obtain ⟨fixups, rfl⟩ := hcmd
    exact trace_dumpChainedFixups E f c _ _
  · obtain ⟨copies, hcopies, -⟩ := trace_execCommand E f c fun fixups he => hcmd ⟨fixups, he⟩
    rw [hcopies]
    exact List.prefix_append _ _

/-! ## The mapping -/

/-- The image is mapped where `mmap` granted it, for the hull of the segments. -/
structure Reserved (c : MachContext) : Prop where
  vAddr_eq : c.vAddr = (hull f).1
  hull_ne : (hull f).1 ≠ uint64Max
  hull_lt : (hull f).1 < (hull f).2
  granted : ∃ calls, E.mmap calls (hull f).1 (mapSize f) = some c.imgAddr
  logged : ⟨(hull f).1, mapSize f, some c.imgAddr⟩ ∈ c.mmaps

/-- What is mapped is reserved. -/
def MappedReserved (c : MachContext) : Prop := c.imgAddr ≠ 0#64 → Reserved E f c

theorem reserved_ensureImageMapping64 {c : MachContext} (h : MappedReserved E f c)
    (hok : (ensureImageMapping64 E f c).1 = 0) : Reserved E f (ensureImageMapping64 E f c).2 := by
  obtain ⟨hi, he⟩ | ⟨-, -, he⟩ | ⟨-, -, -, -, he⟩ | ⟨-, hne, hlt, B, hmap, he⟩ :=
    ensureImageMapping64_cases E f c
  · rw [he]
    exact h hi
  · rw [he] at hok
    simp at hok
  · rw [he] at hok
    simp at hok
  · rw [he]
    exact ⟨rfl, hne, hlt, ⟨c.mmaps, hmap⟩, List.mem_append_right _ (List.mem_singleton_self _)⟩

theorem mappedReserved_ensureImageMapping64 {c : MachContext} (h : MappedReserved E f c) :
    MappedReserved E f (ensureImageMapping64 E f c).2 := by
  obtain ⟨-, he⟩ | ⟨-, -, he⟩ | ⟨hi, -, -, -, he⟩ | ⟨-, -, -, B, -, he⟩ :=
    ensureImageMapping64_cases E f c
  · rwa [he]
  · rwa [he]
  · rw [he]
    exact fun hne => absurd hi hne
  · exact fun _ => reserved_ensureImageMapping64 E f h (by rw [he])

theorem copySegment_fields (c : MachContext) (seg : SegmentCommand64) :
    (copySegment f c seg).imgAddr = c.imgAddr ∧ (copySegment f c seg).vAddr = c.vAddr ∧
      (copySegment f c seg).mmaps = c.mmaps := by
  unfold copySegment
  split_ifs <;> exact ⟨rfl, rfl, rfl⟩

theorem Reserved.congr {c c' : MachContext} (h : Reserved E f c) (hi : c'.imgAddr = c.imgAddr)
    (hv : c'.vAddr = c.vAddr) (hm : c'.mmaps = c.mmaps) : Reserved E f c' :=
  ⟨hv.trans h.vAddr_eq, h.hull_ne, h.hull_lt, by rw [hi]; exact h.granted,
    by rw [hi, hm]; exact h.logged⟩

theorem mappedReserved_execCommand {c : MachContext} (h : MappedReserved E f c) (cmd : Command) :
    MappedReserved E f (execCommand E f c cmd) := by
  by_cases hcmd : ∃ seg, cmd = .segment64 seg
  · obtain ⟨seg, rfl⟩ := hcmd
    obtain ⟨hi, hv, hm⟩ := copySegment_fields f (ensureImageMapping64 E f c).2 seg
    intro hne
    have hmapped : (ensureImageMapping64 E f c).2.imgAddr ≠ 0#64 := fun he => hne (hi.trans he)
    exact (mappedReserved_ensureImageMapping64 E f h hmapped).congr E f hi hv hm
  · obtain ⟨hi, hv, hm, -⟩ := keeps_execCommand E f c fun seg he => hcmd ⟨seg, he⟩
    intro hne
    rw [hi] at hne
    exact (h hne).congr E f hi hv hm

theorem MappedReserved.atPtr {c : MachContext} (h : MappedReserved E f c) (p : ℕ) :
    MappedReserved E f (c.atPtr p) := fun hne => (h hne).congr E f rfl rfl rfl

/-- **Every turn** of a run finds the image unmapped or mapped for the hull of the segments. -/
theorem mappedReserved_of_mem_loaderTurns {m : Mem 64} {c : MachContext}
    (hc : c ∈ loaderTurns E f (MachContext.zero m)) : MappedReserved E f c := by
  refine iterate_invariant (P := MappedReserved E f) (fun c h => ?_) ?_ hc
  · rw [loaderStep_advance]
    exact (mappedReserved_execCommand E f h _).atPtr E f _
  · exact fun hne => absurd rfl hne

/-! ## The bytes of a segment -/

theorem mem_copySegment {c : MachContext} {seg : SegmentCommand64} (hp : ¬ seg.isPagezero)
    (hi : c.imgAddr ≠ 0#64) (hv : c.vAddr ≠ 0#64) {i : ℕ} (hlt : i < seg.filesize.toNat) :
    (copySegment f c seg).mem (c.imgAddr + (seg.vmaddr - c.vAddr) + BitVec.ofNat 64 i) =
      byteAt f (seg.fileoff.toNat + i) := by
  have hsize : seg.filesize ≠ 0#64 := fun he => by simp [he] at hlt
  have hbound := seg.filesize.isLt
  rw [copySegment_of_copied f ⟨hp, hsize, hi, hv⟩]
  dsimp only
  rw [memcpy, overlay_of_inRange (inRange_add _ hlt hbound.le), toNat_add_sub_self _ (by omega)]

theorem copySegment_of_null {c : MachContext} {seg : SegmentCommand64}
    (h : ¬ (c.vAddr ≠ 0#64 ∧ c.imgAddr ≠ 0#64)) : copySegment f c seg = c :=
  copySegment_of_not_copied f fun hc => h ⟨hc.2.2.2, hc.2.2.1⟩

/-- **The bytes of a segment.** At every turn of a run that comes to a segment with file bytes and
finds or makes the mapping, these bytes are in the image when the segment has been loaded exactly
if neither the lowest address nor the image is `NULL`, or they were there before. -/
theorem segment_present_iff {m : Mem 64} {c : MachContext}
    (hc : c ∈ loaderTurns E f (MachContext.zero m))
    (hcmd : (loadCommandAt f c.ptr).cmd = lcSegment64)
    (hmap : (ensureImageMapping64 E f c).1 = 0)
    (hp : ¬ (segmentCommand64 f c.ptr).isPagezero) :
    let seg := segmentCommand64 f c.ptr
    let mapped := (ensureImageMapping64 E f c).2
    let loaded := (loadSegment64 E f c).2
    let place (i : ℕ) := mapped.imgAddr + (seg.vmaddr - (hull f).1) + BitVec.ofNat 64 i
    (loaderStep E f c).mem = loaded.mem ∧ loaded.imgAddr = mapped.imgAddr ∧
      ((∀ i < seg.filesize.toNat, loaded.mem (place i) = byteAt f (seg.fileoff.toNat + i)) ↔
        ((hull f).1 ≠ 0#64 ∧ mapped.imgAddr ≠ 0#64) ∨
          ∀ i < seg.filesize.toNat, mapped.mem (place i) = byteAt f (seg.fileoff.toNat + i)) := by
  intro seg mapped loaded place
  have hreserved : Reserved E f mapped :=
    reserved_ensureImageMapping64 E f (mappedReserved_of_mem_loaderTurns E f hc) hmap
  have hmem : loaded.mem = (copySegment f mapped seg).mem := rfl
  have hstep : (loaderStep E f c).mem = loaded.mem := by
    rw [loaderStep_advance, commandAt, hcmd]
    rfl
  refine ⟨hstep, (copySegment_fields f mapped seg).1, ?_⟩
  by_cases hnull : mapped.vAddr ≠ 0#64 ∧ mapped.imgAddr ≠ 0#64
  · have hcopied : ∀ i < seg.filesize.toNat, loaded.mem (place i) = byteAt f (seg.fileoff.toNat + i) := by
      intro i hi
      rw [hmem]
      have hbyte := mem_copySegment f hp hnull.2 hnull.1 hi
      rwa [hreserved.vAddr_eq] at hbyte
    exact iff_of_true hcopied (.inl ⟨fun he => hnull.1 (hreserved.vAddr_eq.trans he), hnull.2⟩)
  · rw [hmem, copySegment_of_null f hnull, or_iff_right]
    rintro ⟨hbase, himg⟩
    exact hnull ⟨fun he => hbase (hreserved.vAddr_eq.symm.trans he), himg⟩

/-- A segment at `vmaddr` with two bytes in the file. -/
def twoBytesAt (vmaddr : ℕ) : File :=
  encodeHeader 1 ++ encodeSegment64 (lit "__DATA") vmaddr 0x1000 104 2 ++ [0xAA#8, 0xBB#8]

theorem mem_loaderTurns_twoBytesAt {vmaddr : ℕ}
    (hturns : (machHeader64 (twoBytesAt vmaddr)).ncmds.toNat = 1) (m : Mem 64) :
    (MachContext.zero m).atPtr 32 ∈ loaderTurns E (twoBytesAt vmaddr) (MachContext.zero m) := by
  rw [loaderTurns, hturns]
  exact List.mem_singleton_self _

theorem segment_present_twoBytesAt :
    let E := { Env.plain with mmap := fun _ _ _ => some 0x7000#64 }
    let c := (MachContext.zero fun _ => 0#8).atPtr 32
    (loadSegment64 E (twoBytesAt 0x4000) c).2.mem 0x7001#64 = 0xBB#8 := by
  intro E c
  have hhull : (hull (twoBytesAt 0x4000)).1 = 0x4000#64 := by decide +kernel
  have hpresent := (segment_present_iff E (twoBytesAt 0x4000) (c := c)
    (mem_loaderTurns_twoBytesAt E (by decide +kernel) _) (by decide +kernel) (by decide +kernel)
    (by decide +kernel)).2.2.mpr (.inl ⟨by rw [hhull]; decide, by decide +kernel⟩) 1 (by decide +kernel)
  dsimp only at hpresent
  rw [hhull] at hpresent
  have hplace : (ensureImageMapping64 E (twoBytesAt 0x4000) c).2.imgAddr +
      ((segmentCommand64 (twoBytesAt 0x4000) c.ptr).vmaddr - 0x4000#64) + BitVec.ofNat 64 1 =
        0x7001#64 := by
    decide +kernel
  rw [← hplace, hpresent]
  decide +kernel

/-- **An image linked at `0`** is mapped at `0x7000` and stays empty. -/
theorem segment_missing_twoBytesAt :
    let E := { Env.plain with mmap := fun _ _ _ => some 0x7000#64 }
    let c := (MachContext.zero fun _ => 0#8).atPtr 32
    c ∈ loaderTurns E (twoBytesAt 0) (MachContext.zero fun _ => 0#8) ∧
      (segmentCommand64 (twoBytesAt 0) c.ptr).filesize = 2#64 ∧
      (ensureImageMapping64 E (twoBytesAt 0) c).1 = 0 ∧
      (loadSegment64 E (twoBytesAt 0) c).2.imgAddr = 0x7000#64 ∧
      byteAt (twoBytesAt 0) 104 = 0xAA#8 ∧
      (loadSegment64 E (twoBytesAt 0) c).2.mem 0x7000#64 ≠ 0xAA#8 := by
  intro E c
  exact ⟨mem_loaderTurns_twoBytesAt E (by decide +kernel) _, by decide +kernel⟩

/-! ## The range of a copy -/

theorem loaderOffsets_eq_cmdOffsets (hs : WellSized f) (c : MachContext) :
    loaderOffsets E f c = cmdOffsets f := by
  rw [map_ptr_loaderTurns, cmdOffsets, cmdWalk_eq_iterate, iterate_eq_iff]
  rw [WellSized, cmdOffsets, cmdWalk_eq_iterate] at hs
  exact fun p hp => by rw [loaderAdvance_of_sized f (hs p (List.mem_of_mem_dropLast hp))]

theorem segment_mem_of_mem_loaderTurns (hs : WellSized f) {m : Mem 64} {c : MachContext}
    (hc : c ∈ loaderTurns E f (MachContext.zero m))
    (hcmd : (loadCommandAt f c.ptr).cmd = lcSegment64) :
    segmentCommand64 f c.ptr ∈ segmentsOf (commands f) := by
  have hptr : c.ptr ∈ cmdOffsets f := by
    rw [← loaderOffsets_eq_cmdOffsets E f hs]
    exact List.mem_map_of_mem hc
  refine List.mem_filterMap.mpr ⟨commandAt f c.ptr, List.mem_map_of_mem hptr, ?_⟩
  rw [commandAt, hcmd]
  rfl

/-- The file bytes of `seg` end, relative to the image, no higher than `n`. -/
def SegmentCommand64.FitsIn (seg : SegmentCommand64) (base : Addr) (n : ℕ) : Prop :=
  base.toNat ≤ seg.vmaddr.toNat ∧ seg.vmaddr.toNat - base.toNat + seg.filesize.toNat ≤ n

instance (seg : SegmentCommand64) (base : Addr) (n : ℕ) : Decidable (seg.FitsIn base n) := by
  unfold SegmentCommand64.FitsIn; infer_instance

/-- The mapping reaches the highest end of the segments, taken modulo `2 ^ 64`, and no further than
the page it lies in. -/
theorem toNat_mapSize_of_ne (hlt : (hull f).1 < (hull f).2) (hne : mapSize f ≠ 0#64) :
    (mapSize f).toNat = pageUp ((hull f).2.toNat - (hull f).1.toNat) := by
  rw [BitVec.lt_def] at hlt
  have hsub : ((hull f).2 - (hull f).1).toNat = (hull f).2.toNat - (hull f).1.toNat :=
    BitVec.toNat_sub_of_le (by rw [BitVec.le_def]; omega)
  rw [← hsub]
  refine toNat_alignMemory (Nat.lt_of_not_le fun hle => hne ?_)
  exact alignMemory_of_le hle

theorem pageUp_mono {n n' : ℕ} (h : n ≤ n') : pageUp n ≤ pageUp n' := by
  unfold pageUp
  omega

theorem copiedIn_of_trace {c : MachContext} {seg : SegmentCommand64} {ev : Event}
    (h : (copySegment f c seg).trace = c.trace ++ [ev]) : seg.CopiedIn c := by
  by_contra hno
  rw [copySegment_of_not_copied f hno] at h
  simp at h

theorem mem_spannedSegments_of_copied {c : MachContext} {seg : SegmentCommand64}
    (hmem : seg ∈ segmentsOf (commands f)) (hcopied : seg.CopiedIn c)
    (hsize : seg.filesize.toNat ≤ seg.vmsize.toNat) : seg ∈ spannedSegments f := by
  have hpos : seg.filesize.toNat ≠ 0 := fun e => hcopied.2.1 (BitVec.eq_of_toNat_eq e)
  refine (mem_spannedSegments f).mpr ⟨List.mem_filter.mpr ⟨hmem, by simpa using hcopied.1⟩, ?_⟩
  intro hz
  rw [hz, BitVec.toNat_ofNat] at hsize
  omega

/-- **The range of a copy.** Let every segment have no more bytes in the file than in memory, and let
`mmap` refuse an empty mapping. At every turn of a run that comes to a segment with file bytes and
finds or makes the mapping, the copy lies in the mapping exactly if the segment ends below
`2 ^ 64`, or its file bytes end no higher than the page in which some segment ends, ends taken
modulo `2 ^ 64`. -/
theorem copy_inside_iff (hs : WellSized f)
    (hsize : ∀ seg ∈ segmentsOf (commands f), seg.filesize.toNat ≤ seg.vmsize.toNat)
    (hempty : ∀ calls addr, E.mmap calls addr 0#64 = none) {m : Mem 64} {c : MachContext}
    (hc : c ∈ loaderTurns E f (MachContext.zero m))
    (hcmd : (loadCommandAt f c.ptr).cmd = lcSegment64)
    (hmap : (ensureImageMapping64 E f c).1 = 0) :
    let seg := segmentCommand64 f c.ptr
    let mapped := (ensureImageMapping64 E f c).2
    let dest := mapped.imgAddr + (seg.vmaddr - mapped.vAddr)
    let copy := Event.copy dest seg.fileoff.toNat seg.filesize.toNat
    (loadSegment64 E f c).2.trace = mapped.trace ++ [copy] →
      (⟨(hull f).1, mapSize f, some mapped.imgAddr⟩ ∈ mapped.mmaps ∧
        (seg.FitsIn mapped.vAddr (mapSize f).toNat ↔
          seg.vmaddr.toNat + seg.vmsize.toNat < 2 ^ 64 ∨
            ∃ s ∈ spannedSegments f, (hull f).1.toNat ≤ (s.vmaddr + s.vmsize).toNat ∧
              seg.vmaddr.toNat + seg.filesize.toNat ≤ (hull f).1.toNat +
                pageUp ((s.vmaddr + s.vmsize).toNat - (hull f).1.toNat))) := by
  intro seg mapped dest copy hcopy
  have hreserved : Reserved E f mapped :=
    reserved_ensureImageMapping64 E f (mappedReserved_of_mem_loaderTurns E f hc) hmap
  have hmem : seg ∈ segmentsOf (commands f) := segment_mem_of_mem_loaderTurns E f hs hc hcmd
  have hcopied : seg.CopiedIn mapped := copiedIn_of_trace f hcopy
  have hfile := hsize seg hmem
  have hpos : seg.filesize.toNat ≠ 0 := fun e => hcopied.2.1 (BitVec.eq_of_toNat_eq e)
  have hspanned : seg ∈ spannedSegments f := mem_spannedSegments_of_copied f hmem hcopied hfile
  obtain ⟨hlow, -, hhigh, hattained⟩ := hull_bounds f
  have hbase := hlow seg hspanned
  have hlt := hreserved.hull_lt
  have hlen : (mapSize f).toNat = pageUp ((hull f).2.toNat - (hull f).1.toNat) := by
    refine toNat_mapSize_of_ne f hlt fun hz => ?_
    obtain ⟨calls, hgranted⟩ := hreserved.granted
    rw [hz, hempty] at hgranted
    simp at hgranted
  rw [BitVec.lt_def] at hlt
  refine ⟨hreserved.logged, ?_⟩
  rw [SegmentCommand64.FitsIn, hreserved.vAddr_eq, hlen]
  constructor
  · rintro ⟨-, hfit⟩
    rcases hattained with hzero | ⟨s, hs, hstop⟩
    · rw [hzero] at hlt
      exact absurd hlt (Nat.not_lt_zero _)
    · refine .inr ⟨s, hs, by rw [hstop]; omega, ?_⟩
      rw [hstop]
      omega
  · rintro (hend | ⟨s, hs, hle, hfit⟩)
    · have htop := hhigh seg hspanned
      rw [BitVec.toNat_add, Nat.mod_eq_of_lt hend] at htop
      have hup := le_pageUp ((hull f).2.toNat - (hull f).1.toNat)
      exact ⟨hbase, by omega⟩
    · have hup := pageUp_mono (Nat.sub_le_sub_right (hhigh s hs) (hull f).1.toNat)
      exact ⟨hbase, by omega⟩

/-- Surroundings in which `mmap` puts every mapping that is not empty at `0x7000`. -/
def mmapEnv : Env :=
  { Env.plain with mmap := fun _ _ n => if n = 0#64 then none else some 0x7000#64 }

theorem copy_inside_twoBytesAt :
    let c := (MachContext.zero fun _ => 0#8).atPtr 32
    (segmentCommand64 (twoBytesAt 0x4000) c.ptr).FitsIn
      (ensureImageMapping64 mmapEnv (twoBytesAt 0x4000) c).2.vAddr
        (mapSize (twoBytesAt 0x4000)).toNat := by
  intro c
  exact ((copy_inside_iff mmapEnv (twoBytesAt 0x4000) (c := c) (by decide +kernel) (by decide +kernel)
    (fun _ _ => rfl) (mem_loaderTurns_twoBytesAt mmapEnv (by decide +kernel) _) (by decide +kernel)
    (by decide +kernel) (by decide +kernel)).2).mpr (.inl (by decide +kernel))

/-- A segment at `0x1000` and one whose last address is past `2 ^ 64`. -/
def wrappedFile : File :=
  encodeHeader 2 ++ encodeSegment64 (lit "__TEXT") 0x1000 0x1000 0 0 ++
    encodeSegment64 (lit "__DATA") 0xFFFFFFFFFFFFF000 0x2000 176 8 ++ leBytes 8 0

/-- **The end that wraps** is not the highest one: one page is mapped, and the copy goes far past it. -/
theorem copy_outside_wrappedFile :
    let c := loaderStep mmapEnv wrappedFile ((MachContext.zero fun _ => 0#8).atPtr 32)
    let mapped := (ensureImageMapping64 mmapEnv wrappedFile c).2
    let seg := segmentCommand64 wrappedFile c.ptr
    c ∈ loaderTurns mmapEnv wrappedFile (MachContext.zero fun _ => 0#8) ∧ WellSized wrappedFile ∧
      (∀ s ∈ segmentsOf (commands wrappedFile), s.filesize.toNat ≤ s.vmsize.toNat) ∧
      (ensureImageMapping64 mmapEnv wrappedFile c).1 = 0 ∧
      mapped.mmaps = [⟨0x1000#64, 0x1000#64, some 0x7000#64⟩] ∧
      (loadSegment64 mmapEnv wrappedFile c).2.trace =
        [.copy (0x7000#64 + (seg.vmaddr - mapped.vAddr)) 176 8] ∧
      ¬ seg.FitsIn mapped.vAddr 0x1000 := by
  intro c mapped seg
  have hturns : (machHeader64 wrappedFile).ncmds.toNat = 2 := by decide +kernel
  refine ⟨?_, by decide +kernel⟩
  rw [loaderTurns, hturns]
  exact List.mem_cons_of_mem _ (List.mem_singleton_self _)

end Maloader
