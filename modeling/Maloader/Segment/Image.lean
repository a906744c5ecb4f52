import Maloader.Lib.Patch
import Maloader.Segment.Hull

/-!
# The image of the segments

Once the image is mapped, a segment command is a patch of the image and a record.

* `Maps`: the mapping of the file's image succeeds at an address.
* `segmentPatch`, `segmentPatches`, `recordOf`, `segmentCopies`: what a segment adds to the image,
  to the table and to the log.
* `foldl_execSegment`: the state after a list of segment commands.
* **`foldl_execCommand_withLoad`**: other commands, chained fixups apart, do not interfere.
-/

namespace Maloader

open ByteLib

variable (E : Env) (f : File)

/-! ## The mapping -/

/-- `ensure_image_mapping_64` maps the image of `f` at `B`: there is something to map, `mmap` grants
it, and neither `B` nor the lowest address is `NULL`. -/
structure Maps (B : Addr) : Prop where
  hull_ne : (hull f).1 ≠ uint64Max
  hull_lt : (hull f).1 < (hull f).2
  granted : E.mmap [] (hull f).1 (mapSize f) = some B
  img_ne : B ≠ 0#64
  base_ne : (hull f).1 ≠ 0#64

/-- The context with the image of `f` mapped at `B`. -/
def MachContext.mapped (c : MachContext) (f : File) (B : Addr) : MachContext :=
  { c with
    imgAddr := B
    vAddr := (hull f).1
    mem := zeroFill c.mem B (mapSize f).toNat
    mmaps := c.mmaps ++ [⟨(hull f).1, mapSize f, some B⟩] }

theorem ensureImageMapping64_of_maps {B : Addr} (h : Maps E f B) {c : MachContext}
    (hi : c.imgAddr = 0#64) (hm : c.mmaps = []) :
    ensureImageMapping64 E f c = (0, c.mapped f B) := by
  have hhull : ¬ ((hull f).1 = uint64Max ∨ (hull f).2 ≤ (hull f).1) := by
    rintro (he | hle)
    · exact h.hull_ne he
    · exact absurd h.hull_lt (BitVec.not_lt.mpr hle)
  have hgranted : E.mmap c.mmaps (hull f).1 (alignMemory ((hull f).2 - (hull f).1) 0x1000#64) = some B :=
    hm ▸ h.granted
  unfold ensureImageMapping64
  rw [if_neg (not_not.mpr hi)]
  dsimp only
  rw [if_neg hhull, hgranted]
  rfl

theorem ensureImageMapping64_of_ne {c : MachContext} (hi : c.imgAddr ≠ 0#64) :
    ensureImageMapping64 E f c = (0, c) := if_pos hi

/-! ## One segment of a mapped image -/

/-- The file bytes of a segment, placed relative to the lowest address. -/
def segmentPatch (base : Addr) (seg : SegmentCommand64) : Patch where
  dest := (seg.vmaddr - base).toNat
  size := seg.filesize.toNat
  content i := byteAt f (seg.fileoff.toNat + i)

/-- The patches of the segments. -/
def segmentPatches (base : Addr) (segs : List SegmentCommand64) : List Patch :=
  (segs.filter fun seg => !seg.isPagezero).map (segmentPatch f base)

/-- The record of a segment in an image mapped at `B`. -/
def recordOf (B base : Addr) (seg : SegmentCommand64) : SegmentInfo where
  segname := seg.segname
  vmaddr := seg.vmaddr
  vmsize := seg.vmsize
  mappedAddr :=
    if seg.isPagezero then 0#64 else if seg.isText then B else B + (seg.vmaddr - base)

/-- The copies made for the segments. -/
def segmentCopies (B base : Addr) (segs : List SegmentCommand64) : List Event :=
  (segs.filter fun seg => !seg.isPagezero && seg.filesize ≠ 0#64).map fun seg =>
    .copy (B + (seg.vmaddr - base)) seg.fileoff.toNat seg.filesize.toNat

/-- Record segments while there is room. -/
def SegmentTable.pushAll (t : SegmentTable) (l : List SegmentInfo) : SegmentTable :=
  l.foldl SegmentTable.push t

theorem SegmentTable.recs_pushAll (t : SegmentTable) (l : List SegmentInfo) :
    (t.pushAll l).recs = (t.recs ++ l).take machLoaderMaxSegments := by
  induction l generalizing t with
  | nil => rw [List.append_nil, List.take_of_length_le t.length_le]; rfl
  | cons s l ih =>
    have hpush : (t.pushAll (s :: l)).recs = ((t.push s).pushAll l).recs := rfl
    rw [hpush, ih, SegmentTable.recs_push]
    split_ifs with h
    · rw [List.append_assoc]
      rfl
    · have hlen : t.recs.length = machLoaderMaxSegments := le_antisymm t.length_le (not_lt.mp h)
      rw [List.take_append_of_le_length hlen.ge, List.take_append_of_le_length hlen.ge]

/-- A context after the segments `segs` of an image that is mapped. -/
def MachContext.placed (c : MachContext) (f : File) (segs : List SegmentCommand64) : MachContext :=
  { c with
    mem := overlayAll c.mem c.imgAddr (segmentPatches f c.vAddr segs)
    trace := c.trace ++ segmentCopies c.imgAddr c.vAddr segs
    segments := c.segments.pushAll (segs.map (recordOf c.imgAddr c.vAddr)) }

theorem overlay_zero {w : ℕ} (m : Mem w) (a : BitVec w) (g : ℕ → Byte) : overlay m a 0 g = m :=
  funext fun _ => overlay_of_not_inRange (Nat.not_lt_zero _)

theorem placed_placed (c : MachContext) (segs segs' : List SegmentCommand64) :
    (c.placed f segs).placed f segs' = c.placed f (segs ++ segs') := by
  simp only [MachContext.placed, segmentPatches, segmentCopies, overlayAll, SegmentTable.pushAll,
    List.filter_append, List.map_append, List.foldl_append, List.append_assoc]

theorem placed_nil (c : MachContext) : c.placed f [] = c := by
  simp only [MachContext.placed, segmentPatches, segmentCopies, overlayAll, SegmentTable.pushAll,
    List.filter_nil, List.map_nil, List.foldl_nil, List.append_nil]

theorem copySegment_eq {c : MachContext} (hi : c.imgAddr ≠ 0#64) (hv : c.vAddr ≠ 0#64)
    (seg : SegmentCommand64) :
    copySegment f c seg =
      { c with
        mem := overlayAll c.mem c.imgAddr (segmentPatches f c.vAddr [seg])
        trace := c.trace ++ segmentCopies c.imgAddr c.vAddr [seg] } := by
  by_cases hp : seg.isPagezero
  · simp [copySegment, segmentPatches, segmentCopies, hp, overlayAll]
  · by_cases hz : seg.filesize = 0#64
    · simp [copySegment, segmentPatches, segmentPatch, segmentCopies, hp, hz, overlayAll,
        overlay_zero]
    · simp [copySegment, segmentPatches, segmentPatch, segmentCopies, hp, hz, hi, hv, overlayAll,
        memcpy, -BitVec.toNat_sub]

theorem segmentRecord_eq {c : MachContext} (hi : c.imgAddr ≠ 0#64) (hv : c.vAddr ≠ 0#64)
    (seg : SegmentCommand64) : segmentRecord c seg = recordOf c.imgAddr c.vAddr seg := by
  simp only [segmentRecord, recordOf, hi, hv, ne_eq, not_false_eq_true, and_self, if_true]

/-- **One segment** of a mapped image. -/
theorem execSegment_of_ne {c : MachContext} (hi : c.imgAddr ≠ 0#64) (hv : c.vAddr ≠ 0#64)
    (seg : SegmentCommand64) : execSegment E f c seg = c.placed f [seg] := by
  unfold execSegment
  rw [ensureImageMapping64_of_ne E f hi, copySegment_eq f hi hv]
  exact congrArg (fun r => { c with
    mem := overlayAll c.mem c.imgAddr (segmentPatches f c.vAddr [seg])
    trace := c.trace ++ segmentCopies c.imgAddr c.vAddr [seg]
    segments := c.segments.push r }) (segmentRecord_eq hi hv seg)

theorem foldl_execSegment_of_ne {c : MachContext} (hi : c.imgAddr ≠ 0#64) (hv : c.vAddr ≠ 0#64)
    (segs : List SegmentCommand64) : segs.foldl (execSegment E f) c = c.placed f segs := by
  induction segs generalizing c with
  | nil => exact (placed_nil f c).symm
  | cons seg segs ih =>
    rw [List.foldl_cons, execSegment_of_ne E f hi hv, ih (c := c.placed f [seg]) hi hv, placed_placed]
    rfl

theorem foldl_execSegment {B : Addr} (h : Maps E f B) {c : MachContext} (hi : c.imgAddr = 0#64)
    (hm : c.mmaps = []) {segs : List SegmentCommand64} (hne : segs ≠ []) :
    segs.foldl (execSegment E f) c = (c.mapped f B).placed f segs := by
  cases segs with
  | nil => exact absurd rfl hne
  | cons seg segs =>
    have hfirst : execSegment E f c seg = execSegment E f (c.mapped f B) seg := by
      rw [execSegment, execSegment, ensureImageMapping64_of_maps E f h hi hm,
        ensureImageMapping64_of_ne E f (c := c.mapped f B) h.img_ne]
    rw [List.foldl_cons, hfirst, ← List.foldl_cons]
    exact foldl_execSegment_of_ne E f (c := c.mapped f B) h.img_ne h.base_ne _

/-! ## Other commands in between -/

/-- **Segments among other commands**: what they work on depends on the segments alone. -/
theorem foldl_execCommand_withLoad {cmds : List Command} (hc : chainedOf cmds = [])
    (d c : MachContext) :
    ∃ d' : MachContext, cmds.foldl (execCommand E f) (d.withLoad c) =
      d'.withLoad ((segmentsOf cmds).foldl (execSegment E f) c) := by
  induction cmds generalizing d c with
  | nil => exact ⟨d, rfl⟩
  | cons cmd cmds ih =>
    rw [List.foldl_cons]
    cases cmd with
    | segment64 seg =>
      rw [execCommand, execSegment_withLoad]
      exact ih hc d _
    | dyldInfo info =>
      rw [execCommand, loadDyldInfo_eq]
      exact ih hc { d with bList := _ } c
    | symtab symtab =>
      rw [execCommand, loadSymtab_eq]
      exact ih hc { d with entryPoint := _ } c
    | loadDylib name => exact ih hc { d with dList := d.dList ++ [name] } c
    | dyldChainedFixups fixups => simp [chainedOf] at hc
    | other => exact ih hc d c

/-- **A file without chained fixups**: what its segments do is all that happens to the image. -/
theorem loader64_withLoad {B : Addr} (h : Maps E f B)
    (hexec : (machHeader64 f).filetype = mhExecute) (hs : WellSized f)
    (hc : chainedOf (commands f) = [])
    (hne : segmentsOf (commands f) ≠ []) (m : Mem 64) :
    ∃ d : MachContext, loader64 E f (MachContext.zero m) =
      (0, d.withLoad (((MachContext.zero m).mapped f B).placed f (segmentsOf (commands f)))) := by
  obtain ⟨d, hrun⟩ := foldl_execCommand_withLoad E f hc (MachContext.zero m) (MachContext.zero m)
  rw [withLoad_self, foldl_execSegment E f h (c := MachContext.zero m) rfl rfl hne] at hrun
  refine ⟨d.atPtr (cmdEnd f (machHeader64 f).ncmds.toNat machHeader64Size), ?_⟩
  rw [loader64_eq E f hexec hs, hrun, atPtr_withLoad]

end Maloader
