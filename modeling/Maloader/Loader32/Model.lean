import Maloader.Loader.Model

/-!
# The 32-bit loader

`loader` reads the 32-bit structures. It maps a part of the file for every `__TEXT` segment, knows no
chained fixups, and returns `-1` even where it has read every command.

* `MachHeader`, `SegmentCommand`, `Nlist`: the structures;
* `mapText`, `segmentRecord32`, `loadSegment`: a segment. The copy into a mapping that failed goes to
  `MAP_FAILED`: `none`;
* `loadSection`, `loadSections32`, `symtabLoop32`, `loadSymtab32`;
* `loaderStep32`, `loaderLoop32`, `loader`.
-/

namespace Maloader

open ByteLib

/-! ## Structures -/

/-- `MH_MAGIC`. -/
def mhMagic : BitVec 32 := 0xfeedface

/-- `LC_SEGMENT`. -/
def lcSegment : BitVec 32 := 0x1

/-- `struct mach_header`. -/
structure MachHeader where
  filetype : BitVec 32
  ncmds : BitVec 32

/-- `sizeof(struct mach_header)`. -/
def machHeaderSize : ℕ := 28

/-- The header at the beginning of the file. -/
def machHeader (f : File) : MachHeader where
  filetype := u32 f 12
  ncmds := u32 f 16

/-- `struct segment_command`. -/
structure SegmentCommand where
  segname : List Byte
  vmaddr : BitVec 32
  vmsize : BitVec 32
  filesize : BitVec 32
  nsects : BitVec 32
  deriving DecidableEq

/-- `sizeof(struct segment_command)`. -/
def segmentCommandSize : ℕ := 56

/-- The segment command at `p`. -/
def segmentCommand (f : File) (p : ℕ) : SegmentCommand where
  segname := bytesAt f (p + 8) 16
  vmaddr := u32 f (p + 24)
  vmsize := u32 f (p + 28)
  filesize := u32 f (p + 36)
  nsects := u32 f (p + 48)

/-- `strcmp(segname, "__PAGEZERO") == 0`. -/
def SegmentCommand.isPagezero (s : SegmentCommand) : Bool := cstr s.segname == segPagezero

/-- `strcmp(segname, SEG_TEXT) == 0`. -/
def SegmentCommand.isText (s : SegmentCommand) : Bool := cstr s.segname == segText

/-- `sizeof(struct section)`. -/
def sectionSize : ℕ := 68

/-- `struct nlist`. -/
structure Nlist where
  nStrx : ℕ
  nValue : BitVec 32

/-- `sizeof(struct nlist)`. -/
def nlistSize : ℕ := 12

/-- The symbol at `p`. -/
def nlist (f : File) (p : ℕ) : Nlist where
  nStrx := (u32 f p).toNat
  nValue := u32 f (p + 8)

/-! ## Segments -/

/-- The bytes of the file that are copied for a `__TEXT` segment, whatever its size. -/
def textCopySize : ℕ := 0x3000

/-- The length of the mapping: the sum wraps at 32 bits before it is rounded up. -/
def SegmentCommand.mapLength (seg : SegmentCommand) : BitVec 64 :=
  alignMemory ((seg.filesize + 0x3000#32).zeroExtend 64) 0x1000#64

/-- The `__TEXT` branch of `load_segment`. -/
def mapText (E : Env) (f : File) (c : MachContext) (seg : SegmentCommand) : Option MachContext :=
  let vmaddr := seg.vmaddr.zeroExtend 64
  match E.mmap c.mmaps vmaddr seg.mapLength with
  | none => none
  | some vmSegment =>
    some { c with
      imgAddr := vmSegment
      vAddr := vmaddr
      mem := memcpy (zeroFill c.mem vmSegment seg.mapLength.toNat) vmSegment f 0 textCopySize
      mmaps := c.mmaps ++ [⟨vmaddr, seg.mapLength, some vmSegment⟩]
      trace := c.trace ++ [.copy vmSegment 0 textCopySize] }

/-- What `load_segment` records about a segment. -/
def segmentRecord32 (c : MachContext) (seg : SegmentCommand) : SegmentInfo where
  segname := seg.segname
  vmaddr := seg.vmaddr.zeroExtend 64
  vmsize := seg.vmsize.zeroExtend 64
  mappedAddr :=
    if seg.isPagezero then 0#64
    else if seg.isText then c.imgAddr
    else if c.imgAddr ≠ 0#64 ∧ c.vAddr ≠ 0#64 then
      c.imgAddr + (seg.vmaddr.zeroExtend 64 - c.vAddr)
    else 0#64

/-- Returns `nsects` through an `int`. -/
def loadSegment (E : Env) (f : File) (c : MachContext) : Option (ℤ × MachContext) :=
  let seg := segmentCommand f c.ptr
  (if seg.isText then mapText E f c seg else some c).map fun c =>
    (seg.nsects.toInt, { c with segments := c.segments.push (segmentRecord32 c seg) })

/-- Prints the section and leaves the context alone. -/
def loadSection (c : MachContext) : ℤ × MachContext := (0, c)

/-- The section loop of `loader` with `n` sections to go. -/
def loadSections32 : ℕ → MachContext → MachContext
  | 0, c => c
  | n + 1, c =>
    let c := (loadSection c).2
    loadSections32 n { c with ptr := c.ptr + sectionSize }

/-! ## Symbols -/

/-- The symbol loop with `n` symbols left, at symbol `i`. -/
def symtabLoop32 (f : File) (symtab : SymtabCommand) : ℕ → ℕ → MachContext → MachContext
  | 0, _, c => c
  | n + 1, i, c =>
    let sym := nlist f (symtab.symoff + nlistSize * i)
    let c := if cstrAt f (symtab.stroff + sym.nStrx) = mainSymbol then
      { c with entryPoint := some (c.imgAddr + (sym.nValue.zeroExtend 64 - c.vAddr)) } else c
    symtabLoop32 f symtab n (i + 1) c

/-- The branch of `LC_SYMTAB`. -/
def loadSymtab32 (f : File) (c : MachContext) (symtab : SymtabCommand) : MachContext :=
  symtabLoop32 f symtab symtab.nsyms 0 c

/-! ## The command loop -/

/-- One turn of the command loop. -/
def loaderStep32 (E : Env) (f : File) (c : MachContext) : Option MachContext :=
  let command := loadCommandAt f c.ptr
  let skip (c : MachContext) : MachContext := { c with ptr := c.ptr + command.cmdsize.toNat }
  if command.cmd = lcSegment then
    (loadSegment E f c).map fun r =>
      if r.1 ≠ 0 then loadSections32 r.1.toNat { r.2 with ptr := r.2.ptr + segmentCommandSize }
      else skip r.2
  else if command.cmd &&& 0xFF#32 = lcDyldInfo then
    some (skip (loadDyldInfo E f c (dyldInfoCommand f c.ptr)))
  else if command.cmd = lcSymtab then some (skip (loadSymtab32 f c (symtabCommand f c.ptr)))
  else if command.cmd = lcDysymtab then some (skip c)
  else if command.cmd = lcLoadDylinker then some (skip c)
  else if command.cmd = lcLoadDylib then some (skip (dylibListRetriever c (dylibName f c.ptr)))
  else some (skip c)

/-- The command loop with `n` commands left. -/
def loaderLoop32 (E : Env) (f : File) : ℕ → MachContext → Option MachContext
  | 0, c => some c
  | n + 1, c => (loaderStep32 E f c).bind (loaderLoop32 E f n)

/-- The loader for 32-bit files; `none` where it copies into a mapping that has failed. -/
def loader (E : Env) (f : File) (c : MachContext) : Option (ℤ × MachContext) :=
  let c := { c with ptr := 0 }
  let header := machHeader f
  if header.filetype ≠ mhExecute then some (-1, c)
  else (loaderLoop32 E f header.ncmds.toNat { c with ptr := c.ptr + machHeaderSize }).map fun c =>
    (-1, c)

end Maloader
