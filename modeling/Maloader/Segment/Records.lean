import Maloader.Segment.Layout

/-!
# What is recorded of the segments

A segment's address is computed twice, for its copy and for its record. On any file, in any order of
the commands, the record gives the place of the copy or the beginning of the image.

* `Loaded`: the records and the copies after a list of segments; `loaded_execCommand`: one command,
  `loaded_foldl`: a list of commands, `loaded_loader64`: a run.
* **`mappedAddr_iff`**: when the record of a segment tells where its bytes are.
-/

namespace Maloader

open ByteLib

variable (E : Env) (f : File)

/-! ## A run -/

/-- The context after the segments `segs`, other commands between them: nothing is mapped before the
first, the image of `f` is mapped at `B` from then on. -/
structure Loaded (B : Addr) (segs : List SegmentCommand64) (c : MachContext) : Prop where
  unmapped : segs = [] → c.imgAddr = 0#64 ∧ c.mmaps = []
  mapped : segs ≠ [] → c.imgAddr = B ∧ c.vAddr = (hull f).1
  recs : c.segments.recs = (segs.map (recordOf B (hull f).1)).take machLoaderMaxSegments
  copies : c.trace.filter Event.isCopy = segmentCopies B (hull f).1 segs

theorem filter_isCopy_segmentCopies (B base : Addr) (segs : List SegmentCommand64) :
    (segmentCopies B base segs).filter Event.isCopy = segmentCopies B base segs := by
  refine List.filter_eq_self.mpr fun ev hev => ?_
  obtain ⟨seg, -, rfl⟩ := List.mem_map.mp hev
  rfl

theorem segmentCopies_append (B base : Addr) (segs segs' : List SegmentCommand64) :
    segmentCopies B base (segs ++ segs') = segmentCopies B base segs ++ segmentCopies B base segs' := by
  rw [segmentCopies, List.filter_append, List.map_append]
  rfl

theorem take_take_append {α : Type} (n : ℕ) (l l' : List α) :
    (l.take n ++ l').take n = (l ++ l').take n := by
  rcases Nat.le_total n l.length with h | h
  · rw [List.take_append_of_le_length (by rw [List.length_take]; omega), List.take_take, Nat.min_self,
      List.take_append_of_le_length h]
  · rw [List.take_of_length_le h]

variable {E f} {B : Addr}

theorem loaded_placed {segs : List SegmentCommand64} {c : MachContext} (seg : SegmentCommand64)
    (hi : c.imgAddr = B) (hv : c.vAddr = (hull f).1)
    (hrecs : c.segments.recs = (segs.map (recordOf B (hull f).1)).take machLoaderMaxSegments)
    (hcopies : c.trace.filter Event.isCopy = segmentCopies B (hull f).1 segs) :
    Loaded f B (segs ++ [seg]) (c.placed f [seg]) where
  unmapped h := absurd h (by simp)
  mapped _ := ⟨hi, hv⟩
  recs := by
    have hpush : (c.placed f [seg]).segments.recs =
        (c.segments.recs ++ [recordOf c.imgAddr c.vAddr seg]).take machLoaderMaxSegments :=
      SegmentTable.recs_pushAll _ _
    rw [hpush, hrecs, hi, hv, take_take_append, List.map_append]
    rfl
  copies := by
    have htrace : (c.placed f [seg]).trace = c.trace ++ segmentCopies c.imgAddr c.vAddr [seg] := rfl
    rw [htrace, List.filter_append, filter_isCopy_segmentCopies, hcopies, hi, hv, segmentCopies_append]

theorem loaded_execCommand (h : Maps E f B) {segs : List SegmentCommand64} {c : MachContext}
    (hc : Loaded f B segs c) (cmd : Command) :
    Loaded f B (segs ++ segmentsOf [cmd]) (execCommand E f c cmd) := by
  by_cases hcmd : ∃ seg, cmd = .segment64 seg
  · obtain ⟨seg, rfl⟩ := hcmd
    change Loaded f B (segs ++ [seg]) (execSegment E f c seg)
    by_cases hne : segs = []
    · obtain ⟨hi, hm⟩ := hc.unmapped hne
      have hfirst := foldl_execSegment E f h hi hm (List.cons_ne_nil seg [])
      rw [List.foldl_cons, List.foldl_nil] at hfirst
      rw [hfirst]
      exact loaded_placed (c := c.mapped f B) seg rfl rfl hc.recs hc.copies
    · obtain ⟨hi, hv⟩ := hc.mapped hne
      rw [execSegment_of_ne E f (hi.symm ▸ h.img_ne) (hv.symm ▸ h.base_ne)]
      exact loaded_placed seg hi hv hc.recs hc.copies
  · have hnil : segmentsOf [cmd] = [] := by
      cases cmd with
      | segment64 seg => exact absurd ⟨seg, rfl⟩ hcmd
      | _ => rfl
    obtain ⟨hi, hv, hm, hs, ht⟩ := keeps_execCommand E f c fun seg he => hcmd ⟨seg, he⟩
    rw [hnil, List.append_nil]
    exact ⟨fun he => by rw [hi, hm]; exact hc.unmapped he,
      fun he => by rw [hi, hv]; exact hc.mapped he, by rw [hs]; exact hc.recs,
      by rw [ht]; exact hc.copies⟩

theorem loaded_foldl (h : Maps E f B) (cmds : List Command) {segs : List SegmentCommand64}
    {c : MachContext} (hc : Loaded f B segs c) :
    Loaded f B (segs ++ segmentsOf cmds) (cmds.foldl (execCommand E f) c) := by
  induction cmds generalizing segs c with
  | nil => rwa [segmentsOf, List.filterMap_nil, List.append_nil]
  | cons cmd cmds ih =>
    have hstep := ih (loaded_execCommand h hc cmd)
    rwa [List.append_assoc, segmentsOf, segmentsOf, ← List.filterMap_append] at hstep

theorem Loaded.atPtr {segs : List SegmentCommand64} {c : MachContext} (hc : Loaded f B segs c) (p : ℕ) :
    Loaded f B segs (c.atPtr p) := ⟨hc.unmapped, hc.mapped, hc.recs, hc.copies⟩

theorem loaded_loader64 (h : Maps E f B) (hexec : (machHeader64 f).filetype = mhExecute)
    (hs : WellSized f) (m : Mem 64) :
    Loaded f B (segmentsOf (commands f)) (loader64 E f (MachContext.zero m)).2 := by
  have hstart : Loaded f B [] (MachContext.zero m) := ⟨fun _ => ⟨rfl, rfl⟩, fun h => absurd rfl h, rfl, rfl⟩
  have hrun := loaded_foldl h (commands f) hstart
  rw [List.nil_append] at hrun
  rw [loader64_eq E f hexec hs]
  exact hrun.atPtr _

/-! ## Records and copies -/

/-- The record of a segment gives the address relative to the lowest one unless it is that of a
`__TEXT` segment that lies higher. -/
theorem mappedAddr_recordOf_iff (B base : Addr) {seg : SegmentCommand64} (hp : ¬ seg.isPagezero) :
    (recordOf B base seg).mappedAddr = B + (seg.vmaddr - base) ↔
      (seg.isText → seg.vmaddr = base) := by
  rw [recordOf]
  dsimp only
  rw [if_neg hp]
  by_cases ht : seg.isText
  · rw [if_pos ht, left_eq_add]
    exact ⟨fun h _ => sub_eq_zero.mp h, fun h => sub_eq_zero.mpr (h ht)⟩
  · rw [if_neg ht]
    exact iff_of_true rfl fun h => absurd h ht

/-- **The record of a segment tells where its bytes are**, and the bind path computes the location of
an offset from there, exactly if the segment is not named `__TEXT` or has the lowest address. The
file's commands may come in any order. -/
theorem mappedAddr_iff (E : Env) (f : File) (m : Mem 64) {B : Addr}
    (hexec : (machHeader64 f).filetype = mhExecute) (hs : WellSized f) (h : Maps E f B) {i : ℕ}
    {seg : SegmentCommand64} {info : SegmentInfo} (hseg : (segmentsOf (commands f))[i]? = some seg)
    (hrec : (loader64 E f (MachContext.zero m)).2.segments.recs[i]? = some info)
    (hp : ¬ seg.isPagezero) :
    let c := (loader64 E f (MachContext.zero m)).2
    let place := c.imgAddr + (seg.vmaddr - c.vAddr)
    c.imgAddr = B ∧ c.vAddr = (hull f).1 ∧ info.segname = seg.segname ∧ info.vmaddr = seg.vmaddr ∧
      (seg.filesize ≠ 0#64 →
        Event.copy place seg.fileoff.toNat seg.filesize.toNat ∈ c.trace) ∧
      (info.mappedAddr = place ↔ (seg.isText → seg.vmaddr = (hull f).1)) ∧
      (info.mappedAddr ≠ 0#64 → ∀ offset : BitVec 64,
        (bindAddressForSegmentOffset c.segments i offset = place + offset ↔
          (seg.isText → seg.vmaddr = (hull f).1))) := by
  intro c place
  have hc : Loaded f B (segmentsOf (commands f)) c := loaded_loader64 h hexec hs m
  have hmem : seg ∈ segmentsOf (commands f) := List.mem_of_getElem? hseg
  obtain ⟨hi, hv⟩ := hc.mapped (List.ne_nil_of_mem hmem)
  have hinfo : info = recordOf B (hull f).1 seg := by
    have hrec : c.segments.recs[i]? = some info := hrec
    rw [hc.recs, List.getElem?_take] at hrec
    split_ifs at hrec
    rw [List.getElem?_map, hseg] at hrec
    exact (Option.some.inj hrec).symm
  have hplace : place = B + (seg.vmaddr - (hull f).1) := by
    change c.imgAddr + (seg.vmaddr - c.vAddr) = _
    rw [hi, hv]
  have hiff : info.mappedAddr = place ↔ (seg.isText → seg.vmaddr = (hull f).1) := by
    rw [hinfo, hplace]
    exact mappedAddr_recordOf_iff B (hull f).1 hp
  refine ⟨hi, hv, by rw [hinfo]; rfl, by rw [hinfo]; rfl, fun hsize => ?_, hiff, fun hne offset => ?_⟩
  · have hcopy : Event.copy place seg.fileoff.toNat seg.filesize.toNat ∈
        segmentCopies B (hull f).1 (segmentsOf (commands f)) := by
      rw [hplace]
      exact List.mem_map_of_mem (f := fun seg : SegmentCommand64 => Event.copy
        (B + (seg.vmaddr - (hull f).1)) seg.fileoff.toNat seg.filesize.toNat)
        (List.mem_filter.mpr ⟨hmem, by simp [hp, hsize]⟩)
    rw [← hc.copies] at hcopy
    exact (List.mem_filter.mp hcopy).1
  · have haddr : bindAddressForSegmentOffset c.segments i offset = info.mappedAddr + offset := by
      have hrec : c.segments.recs[i]? = some info := hrec
      rw [bindAddressForSegmentOffset, if_neg (by omega), Int.toNat_natCast, hrec]
      exact if_neg hne
    rw [haddr, add_left_inj, hiff]

/-- Two segments, the one named `first` below. -/
def twoSegments (first second : String) : File :=
  encodeHeader 2 ++ encodeSegment64 (lit first) 0x4000 0x1000 176 8 ++
    encodeSegment64 (lit second) 0x5000 0x1000 184 8 ++ leBytes 8 1 ++ leBytes 8 2

theorem maps_twoSegments {first second : String}
    (h : hull (twoSegments first second) = (0x4000#64, 0x6000#64)) :
    Maps { Env.plain with mmap := fun _ _ _ => some 0x7000#64 } (twoSegments first second) 0x7000#64 :=
  ⟨by rw [h]; decide, by rw [h]; decide, rfl, by decide, by rw [h]; decide⟩

theorem mappedAddr_textFirst :
    let E := { Env.plain with mmap := fun _ _ _ => some 0x7000#64 }
    let f := twoSegments "__TEXT" "__DATA"
    let info : SegmentInfo := ⟨lit "__DATA" ++ List.replicate 10 0#8, 0x5000#64, 0x1000#64, 0x8000#64⟩
    (loader64 E f (MachContext.zero fun _ => 0#8)).2.segments.recs[1]? = some info ∧
      info.mappedAddr = 0x7000#64 + (0x5000#64 - 0x4000#64) := by
  intro E f info
  have hhull : hull f = (0x4000#64, 0x6000#64) := by decide +kernel
  have hrec : (loader64 E f (MachContext.zero fun _ => 0#8)).2.segments.recs[1]? = some info := by
    decide +kernel
  have hseg : (segmentsOf (commands f))[1]? =
      some ⟨72, lit "__DATA" ++ List.replicate 10 0#8, 0x5000#64, 0x1000#64, 184#64, 8#64, 0#32⟩ := by
    decide +kernel
  obtain ⟨hi, hv, -, -, -, hiff, -⟩ := mappedAddr_iff E f (fun _ => 0#8) (by decide +kernel)
    (by decide +kernel) (maps_twoSegments hhull) hseg hrec (by decide)
  have hplace := hiff.mpr fun ht => absurd ht (by decide)
  rw [hi, hv, hhull] at hplace
  exact ⟨hrec, hplace⟩

/-- **With `__TEXT` above**, its record gives the beginning of `__DATA`. -/
theorem mappedAddr_textSecond :
    let E := { Env.plain with mmap := fun _ _ _ => some 0x7000#64 }
    let f := twoSegments "__DATA" "__TEXT"
    let c := (loader64 E f (MachContext.zero fun _ => 0#8)).2
    (machHeader64 f).filetype = mhExecute ∧ WellSized f ∧ c.imgAddr = 0x7000#64 ∧
      c.vAddr = 0x4000#64 ∧ (c.segments.recs.map SegmentInfo.vmaddr) = [0x4000#64, 0x5000#64] ∧
      (c.segments.recs.map SegmentInfo.mappedAddr) = [0x7000#64, 0x7000#64] ∧
      c.trace = [.copy 0x7000#64 176 8, .copy 0x8000#64 184 8] ∧
      (c.segments.recs.map SegmentInfo.mappedAddr)[1]? ≠
        some (c.imgAddr + (0x5000#64 - c.vAddr)) := by
  decide +kernel

end Maloader
