import Maloader.Context

/-!
# Mapping the image and loading a segment

* `alignMemory`, `hullStep`, `hullLoop`, `ensureImageMapping64`: one `mmap` for the whole image, as
  large as the hull of the segments;
* `copySegment`, `segmentRecord`, `loadSegment64`: the file bytes and the record of one segment;
* `loadSection64`, `loadSections`: the section headers, which are only stepped over.
-/

namespace Maloader

open ByteLib

/-- `pointer` rounded up to a multiple of `alignment`, a power of two. -/
def alignMemory (pointer alignment : BitVec 64) : BitVec 64 :=
  (pointer + (alignment - 1#64)) &&& ~~~(alignment - 1#64)

/-- `UINT64_MAX`. -/
def uint64Max : BitVec 64 := BitVec.allOnes 64

/-- One turn of the look-ahead: `(min_vmaddr, max_vmaddr)` after the command at `p`. -/
def hullStep (f : File) (mm : Addr × Addr) (p : ℕ) : Addr × Addr :=
  let seg := segmentCommand64 f p
  if (loadCommandAt f p).cmd = lcSegment64 ∧ ¬ seg.isPagezero ∧ seg.vmsize ≠ 0#64 then
    (if seg.vmaddr < mm.1 then seg.vmaddr else mm.1,
      if mm.2 < seg.vmaddr + seg.vmsize then seg.vmaddr + seg.vmsize else mm.2)
  else mm

/-- The look-ahead over the next `n` commands from `p` on. -/
def hullLoop (f : File) : ℕ → ℕ → Addr × Addr → Addr × Addr
  | 0, _, mm => mm
  | n + 1, p, mm => hullLoop f n (p + (loadCommandAt f p).cmdsize.toNat) (hullStep f mm p)

/-- `(min_vmaddr, max_vmaddr)` over all load commands. -/
def hull (f : File) : Addr × Addr :=
  hullLoop f (machHeader64 f).ncmds.toNat machHeader64Size (uint64Max, 0#64)

/-- One mapping for the whole image, unless it is there; `-1` where there is nothing to map or
`mmap` fails. -/
def ensureImageMapping64 (E : Env) (f : File) (c : MachContext) : ℤ × MachContext :=
  if c.imgAddr ≠ 0#64 then (0, c)
  else
    let minVmaddr := (hull f).1
    let maxVmaddr := (hull f).2
    if minVmaddr = uint64Max ∨ maxVmaddr ≤ minVmaddr then (-1, c)
    else
      let mapSize := alignMemory (maxVmaddr - minVmaddr) 0x1000#64
      let result := E.mmap c.mmaps minVmaddr mapSize
      let c := { c with mmaps := c.mmaps ++ [⟨minVmaddr, mapSize, result⟩] }
      match result with
      | none => (-1, c)
      | some mapped =>
        (0, { c with
          imgAddr := mapped
          vAddr := minVmaddr
          mem := zeroFill c.mem mapped mapSize.toNat })

/-- The `memcpy` of `load_segment_64` with its guard. -/
def copySegment (f : File) (c : MachContext) (seg : SegmentCommand64) : MachContext :=
  if ¬ seg.isPagezero ∧ seg.filesize ≠ 0#64 ∧ c.imgAddr ≠ 0#64 ∧ c.vAddr ≠ 0#64 then
    let dest := c.imgAddr + (seg.vmaddr - c.vAddr)
    { c with
      mem := memcpy c.mem dest f seg.fileoff.toNat seg.filesize.toNat
      trace := c.trace ++ [.copy dest seg.fileoff.toNat seg.filesize.toNat] }
  else c

/-- What `load_segment_64` records about a segment. -/
def segmentRecord (c : MachContext) (seg : SegmentCommand64) : SegmentInfo where
  segname := seg.segname
  vmaddr := seg.vmaddr
  vmsize := seg.vmsize
  mappedAddr :=
    if seg.isPagezero then 0#64
    else if seg.isText then c.imgAddr
    else if c.imgAddr ≠ 0#64 ∧ c.vAddr ≠ 0#64 then c.imgAddr + (seg.vmaddr - c.vAddr)
    else 0#64

/-- Returns `nsects` through an `int`. -/
def loadSegment64 (E : Env) (f : File) (c : MachContext) : ℤ × MachContext :=
  let seg := segmentCommand64 f c.ptr
  let c := (ensureImageMapping64 E f c).2
  let c := copySegment f c seg
  (seg.nsects.toInt, { c with segments := c.segments.push (segmentRecord c seg) })

/-- Prints the section and leaves the context alone. -/
def loadSection64 (c : MachContext) : ℤ × MachContext := (0, c)

/-- The section loop of `loader_64` with `n` sections to go. -/
def loadSections : ℕ → MachContext → MachContext
  | 0, c => c
  | n + 1, c =>
    let c := (loadSection64 c).2
    loadSections n { c with ptr := c.ptr + section64Size }

end Maloader
