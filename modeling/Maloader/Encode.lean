import Maloader.MachO

/-!
# Writing Mach-O structures

The bytes of a header and of the load commands, with zeros in the fields the loader does not read.
A small file is a header, its commands and what they point at, one behind the other.

* `encodeHeader`, `encodeSegment64`, `encodeSegment64Sized`, `encodeDyldInfo`, `encodeSymtab`,
  `encodeNlist64`, `encodeLoadDylib`, `encodeChainedFixups`.
-/

namespace Maloader

open ByteLib

/-- The header of a 64-bit executable. -/
def encodeHeader (ncmds : ℕ) : File :=
  leBytes 4 mhMagic64.toNat ++ leBytes 8 0 ++ leBytes 4 mhExecute.toNat ++ leBytes 4 ncmds ++
    leBytes 12 0

/-- A segment without sections. -/
def encodeSegment64 (segname : CString) (vmaddr vmsize fileoff filesize : ℕ) : File :=
  leBytes 4 lcSegment64.toNat ++ leBytes 4 72 ++ (segname ++ List.replicate (16 - segname.length) 0#8) ++
    leBytes 8 vmaddr ++ leBytes 8 vmsize ++ leBytes 8 fileoff ++ leBytes 8 filesize ++ leBytes 16 0

/-- A segment command of `cmdsize` bytes that announces `nsects` sections, all zero. -/
def encodeSegment64Sized (cmdsize nsects : ℕ) (segname : CString)
    (vmaddr vmsize fileoff filesize : ℕ) : File :=
  leBytes 4 lcSegment64.toNat ++ leBytes 4 cmdsize ++
    (segname ++ List.replicate (16 - segname.length) 0#8) ++ leBytes 8 vmaddr ++ leBytes 8 vmsize ++
    leBytes 8 fileoff ++ leBytes 8 filesize ++ leBytes 8 0 ++ leBytes 4 nsects ++ leBytes 4 0 ++
    List.replicate (cmdsize - 72) 0#8

/-- A bind table; the other streams of the command are empty. -/
def encodeDyldInfo (bindOff bindSize lazyBindOff lazyBindSize : ℕ) : File :=
  leBytes 4 lcDyldInfoOnly.toNat ++ leBytes 4 48 ++ leBytes 8 0 ++ leBytes 4 bindOff ++
    leBytes 4 bindSize ++ leBytes 8 0 ++ leBytes 4 lazyBindOff ++ leBytes 4 lazyBindSize ++ leBytes 8 0

/-- A symbol table; the size of its strings is left zero. -/
def encodeSymtab (symoff nsyms stroff : ℕ) : File :=
  leBytes 4 lcSymtab.toNat ++ leBytes 4 24 ++ leBytes 4 symoff ++ leBytes 4 nsyms ++
    leBytes 4 stroff ++ leBytes 4 0

/-- A symbol: the place of its name, and its value. -/
def encodeNlist64 (nStrx nValue : ℕ) : File := leBytes 4 nStrx ++ leBytes 4 0 ++ leBytes 8 nValue

/-- The name stands behind the command's fields. -/
def encodeLoadDylib (name : CString) : File :=
  leBytes 4 lcLoadDylib.toNat ++ leBytes 4 (24 + name.length + 1) ++ leBytes 4 24 ++ leBytes 12 0 ++
    name ++ [0#8]

/-- Chained fixups, with the place and the size of their payload. -/
def encodeChainedFixups (dataoff datasize : ℕ) : File :=
  leBytes 4 lcDyldChainedFixups.toNat ++ leBytes 4 16 ++ leBytes 4 dataoff ++ leBytes 4 datasize

end Maloader
