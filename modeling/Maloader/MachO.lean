import Maloader.Lib.Memory

/-!
# The Mach-O structures the loader reads

A file is the list of its bytes; a structure is read field by field at its offset. Only the fields
the loader acts on are kept. Integers are little-endian, as on the hosts the loader runs on.

* `MachHeader64`, `SegmentCommand64`, `DyldInfoCommand`, `SymtabCommand`, `Nlist64`,
  `LinkeditDataCommand`, `ChainedFixupsHeader`, `ChainedStartsInSegment`;
* `commandKind`: the branch `loader_64` takes on a command word.
-/

namespace Maloader

open ByteLib

/-- A host address; `0` is `NULL`. -/
abbrev Addr := BitVec 64

/-- The bytes of the file behind `memblock`. -/
abbrev File := List Byte

/-- What a `char*` points at, without the NUL. -/
abbrev CString := List Byte

/-- A string literal of the source. -/
def lit (s : String) : CString := s.toList.map fun ch => BitVec.ofNat 8 ch.toNat

/-- The `uint16_t` at offset `p`. -/
def u16 (f : File) (p : ℕ) : BitVec 16 := BitVec.ofNat 16 (leNat (bytesAt f p 2))

/-- The `uint32_t` at offset `p`. -/
def u32 (f : File) (p : ℕ) : BitVec 32 := BitVec.ofNat 32 (leNat (bytesAt f p 4))

/-- The `uint64_t` at offset `p`. -/
def u64 (f : File) (p : ℕ) : BitVec 64 := BitVec.ofNat 64 (leNat (bytesAt f p 8))

/-- The string at offset `p`. -/
def cstrAt (f : File) (p : ℕ) : CString := cstr (f.drop p)

/-! ## Constants -/

/-- `MH_MAGIC_64`. -/
def mhMagic64 : BitVec 32 := 0xfeedfacf

/-- `MH_EXECUTE`. -/
def mhExecute : BitVec 32 := 0x2

/-- `LC_SYMTAB`. -/
def lcSymtab : BitVec 32 := 0x2

/-- `LC_DYSYMTAB`. -/
def lcDysymtab : BitVec 32 := 0xb

/-- `LC_LOAD_DYLIB`. -/
def lcLoadDylib : BitVec 32 := 0xc

/-- `LC_LOAD_DYLINKER`. -/
def lcLoadDylinker : BitVec 32 := 0xe

/-- `LC_SEGMENT_64`. -/
def lcSegment64 : BitVec 32 := 0x19

/-- `LC_DYLD_INFO`. -/
def lcDyldInfo : BitVec 32 := 0x22

/-- `LC_DYLD_INFO_ONLY`. -/
def lcDyldInfoOnly : BitVec 32 := 0x80000022

/-- `LC_DYLD_EXPORTS_TRIE`. -/
def lcDyldExportsTrie : BitVec 32 := 0x80000033

/-- `LC_DYLD_CHAINED_FIXUPS`. -/
def lcDyldChainedFixups : BitVec 32 := 0x80000034

/-- `SEG_PAGEZERO`. -/
def segPagezero : CString := lit "__PAGEZERO"

/-- `SEG_TEXT`. -/
def segText : CString := lit "__TEXT"

/-- `MAL_DYLD_CHAINED_PTR_64_OFFSET`. -/
def malDyldChainedPtr64Offset : BitVec 16 := 6

/-- `MAL_DYLD_CHAINED_PTR_START_NONE`: a page without fixups. -/
def malDyldChainedPtrStartNone : BitVec 16 := 0xFFFF

/-- `MAL_DYLD_CHAINED_PTR_START_MULTI`: a page with several chains. -/
def malDyldChainedPtrStartMulti : BitVec 16 := 0x8000

/-! ## Header and load commands -/

/-- `struct mach_header_64`. -/
structure MachHeader64 where
  magic : BitVec 32
  filetype : BitVec 32
  ncmds : BitVec 32

/-- `sizeof(struct mach_header_64)`. -/
def machHeader64Size : ℕ := 32

/-- The header at the beginning of the file. -/
def machHeader64 (f : File) : MachHeader64 where
  magic := u32 f 0
  filetype := u32 f 12
  ncmds := u32 f 16

/-- The first two fields of every load command. -/
structure LoadCommand where
  cmd : BitVec 32
  cmdsize : BitVec 32

/-- The first two words of the command at `p`. -/
def loadCommandAt (f : File) (p : ℕ) : LoadCommand where
  cmd := u32 f p
  cmdsize := u32 f (p + 4)

/-- `struct segment_command_64`. -/
structure SegmentCommand64 where
  cmdsize : BitVec 32
  segname : List Byte
  vmaddr : BitVec 64
  vmsize : BitVec 64
  fileoff : BitVec 64
  filesize : BitVec 64
  nsects : BitVec 32
  deriving DecidableEq

/-- The segment command at `p`. -/
def segmentCommand64 (f : File) (p : ℕ) : SegmentCommand64 where
  cmdsize := u32 f (p + 4)
  segname := bytesAt f (p + 8) 16
  vmaddr := u64 f (p + 24)
  vmsize := u64 f (p + 32)
  fileoff := u64 f (p + 40)
  filesize := u64 f (p + 48)
  nsects := u32 f (p + 64)

/-- `sizeof(struct section_64)`. -/
def section64Size : ℕ := 80

/-- `struct dyld_info_command`. -/
structure DyldInfoCommand where
  bindOff : ℕ
  bindSize : ℕ
  lazyBindOff : ℕ
  lazyBindSize : ℕ
  deriving DecidableEq

/-- The bind table at `p`. -/
def dyldInfoCommand (f : File) (p : ℕ) : DyldInfoCommand where
  bindOff := (u32 f (p + 16)).toNat
  bindSize := (u32 f (p + 20)).toNat
  lazyBindOff := (u32 f (p + 32)).toNat
  lazyBindSize := (u32 f (p + 36)).toNat

/-- `struct symtab_command`. -/
structure SymtabCommand where
  symoff : ℕ
  nsyms : ℕ
  stroff : ℕ
  deriving DecidableEq

/-- The symbol table at `p`. -/
def symtabCommand (f : File) (p : ℕ) : SymtabCommand where
  symoff := (u32 f (p + 8)).toNat
  nsyms := (u32 f (p + 12)).toNat
  stroff := (u32 f (p + 16)).toNat

/-- `struct nlist_64`. -/
structure Nlist64 where
  nStrx : ℕ
  nValue : BitVec 64

/-- `sizeof(struct nlist_64)`. -/
def nlist64Size : ℕ := 16

/-- The symbol at `p`. -/
def nlist64 (f : File) (p : ℕ) : Nlist64 where
  nStrx := (u32 f p).toNat
  nValue := u64 f (p + 8)

/-- The name of the library of a `dylib_command`. -/
def dylibName (f : File) (p : ℕ) : CString := cstrAt f (p + (u32 f (p + 8)).toNat)

/-- `struct linkedit_data_command`. -/
structure LinkeditDataCommand where
  dataoff : ℕ
  datasize : ℕ
  deriving DecidableEq

/-- The chained fixups command at `p`. -/
def linkeditDataCommand (f : File) (p : ℕ) : LinkeditDataCommand where
  dataoff := (u32 f (p + 8)).toNat
  datasize := (u32 f (p + 12)).toNat

/-! ## Chained fixups payload -/

/-- `struct dyld_chained_fixups_header`. -/
structure ChainedFixupsHeader where
  startsOffset : ℕ
  importsOffset : ℕ
  symbolsOffset : ℕ
  importsCount : BitVec 32
  importsFormat : BitVec 32

/-- `sizeof(struct dyld_chained_fixups_header)`. -/
def chainedFixupsHeaderSize : ℕ := 28

/-- The header of the payload at `p`. -/
def chainedFixupsHeader (f : File) (p : ℕ) : ChainedFixupsHeader where
  startsOffset := (u32 f (p + 4)).toNat
  importsOffset := (u32 f (p + 8)).toNat
  symbolsOffset := (u32 f (p + 12)).toNat
  importsCount := u32 f (p + 16)
  importsFormat := u32 f (p + 20)

/-- `struct dyld_chained_starts_in_segment`. -/
structure ChainedStartsInSegment where
  pageSize : BitVec 16
  pointerFormat : BitVec 16
  segmentOffset : BitVec 64
  pageCount : BitVec 16
  pageStart : ℕ → BitVec 16

/-- `sizeof(struct dyld_chained_starts_in_segment)`. -/
def chainedStartsInSegmentSize : ℕ := 24

/-- The starts at `p`. -/
def chainedStartsInSegment (f : File) (p : ℕ) : ChainedStartsInSegment where
  pageSize := u16 f (p + 4)
  pointerFormat := u16 f (p + 6)
  segmentOffset := u64 f (p + 8)
  pageCount := u16 f (p + 20)
  pageStart page := u16 f (p + 22 + 2 * page)

/-! ## Command dispatch -/

/-- The branches of the command loop of `loader_64`. -/
inductive CommandKind
  | segment64 | dyldInfo | symtab | dysymtab | loadDylinker | loadDylib | dyldChainedFixups
  | dyldExportsTrie | other
  deriving DecidableEq, Repr

/-- The branch taken on a command word, in the order of the `else if` chain. -/
def commandKind (cmd : BitVec 32) : CommandKind :=
  if cmd = lcSegment64 then .segment64
  else if cmd &&& 0xFF#32 = lcDyldInfo then .dyldInfo
  else if cmd = lcSymtab then .symtab
  else if cmd = lcDysymtab then .dysymtab
  else if cmd = lcLoadDylinker then .loadDylinker
  else if cmd = lcLoadDylib then .loadDylib
  else if cmd = lcDyldChainedFixups then .dyldChainedFixups
  else if cmd = lcDyldExportsTrie then .dyldExportsTrie
  else .other

/-- `strcmp(segname, "__PAGEZERO") == 0`. -/
def SegmentCommand64.isPagezero (s : SegmentCommand64) : Bool := cstr s.segname == segPagezero

/-- `strcmp(segname, SEG_TEXT) == 0`. -/
def SegmentCommand64.isText (s : SegmentCommand64) : Bool := cstr s.segname == segText

end Maloader
