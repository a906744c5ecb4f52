import Maloader.Chained.Tables
import Maloader.Loader.Executable

/-!
# Files that hold what they point at

A file is read at offsets that it names itself. In a well-formed one these offsets lie in the file, and
the strings there end in it.

* `CStringInside`, `SymtabCommand.Inside`: strings, and symbol tables with the names of their symbols.
* `PayloadInside`: the tables of a payload and the names of its imports.
* `TablesInside`: all of them, and the commands with the names of their libraries.
-/

namespace Maloader

open ByteLib

/-- The string at `p` ends in the file. -/
def CStringInside (f : File) (p : ℕ) : Prop := 0#8 ∈ f.drop p

instance instDecidableCStringInside (f : File) (p : ℕ) : Decidable (CStringInside f p) :=
  inferInstanceAs (Decidable (0#8 ∈ f.drop p))

theorem CStringInside.of_hasAt {f : File} {p : ℕ} {bs : List Byte} (h : HasAt f p bs) (h0 : 0#8 ∈ bs) :
    CStringInside f p := h.subset h0

/-- The entries of a symbol table, `entrySize` bytes each, and the names of its symbols. -/
def SymtabCommand.Inside (symtab : SymtabCommand) (f : File) (entrySize : ℕ) : Prop :=
  symtab.symoff + entrySize * symtab.nsyms ≤ f.length ∧ ∀ i < symtab.nsyms,
    CStringInside f (symtab.stroff + (u32 f (symtab.symoff + entrySize * i)).toNat)

instance SymtabCommand.instDecidableInside (symtab : SymtabCommand) (f : File) (entrySize : ℕ) :
    Decidable (symtab.Inside f entrySize) :=
  inferInstanceAs (Decidable (symtab.symoff + entrySize * symtab.nsyms ≤ f.length ∧
    ∀ i < symtab.nsyms,
      CStringInside f (symtab.stroff + (u32 f (symtab.symoff + entrySize * i)).toNat)))

/-- A payload lies in the file, its tables lie in it, and the names of its imports end in the file. -/
structure PayloadInside (f : File) (fixups : LinkeditDataCommand) : Prop where
  inFile : fixups.dataoff + fixups.datasize ≤ f.length
  segInfo : (chainedFixupsHeader f fixups.dataoff).startsOffset + 4 +
    4 * chainedSegCount f fixups.dataoff ≤ fixups.datasize
  pageStart : ∀ i < chainedSegCount f fixups.dataoff, ∀ p ∈ segInfoAt f fixups.dataoff i,
    p + 22 + 2 * (chainedStartsInSegment f p).pageCount.toNat ≤ fixups.dataoff + fixups.datasize
  imports : (chainedFixupsHeader f fixups.dataoff).importsOffset +
    4 * (chainedFixupsHeader f fixups.dataoff).importsCount.toNat ≤ fixups.datasize
  names : ∀ i < (chainedFixupsHeader f fixups.dataoff).importsCount.toNat,
    CStringInside f (importNameAt f fixups.dataoff (BitVec.ofNat 32 i))

instance instDecidablePayloadInside (f : File) (fixups : LinkeditDataCommand) :
    Decidable (PayloadInside f fixups) :=
  decidable_of_iff ((fixups.dataoff + fixups.datasize ≤ f.length ∧
      (chainedFixupsHeader f fixups.dataoff).startsOffset + 4 +
        4 * chainedSegCount f fixups.dataoff ≤ fixups.datasize ∧
      ∀ i < chainedSegCount f fixups.dataoff, ∀ p ∈ segInfoAt f fixups.dataoff i,
        p + 22 + 2 * (chainedStartsInSegment f p).pageCount.toNat ≤
          fixups.dataoff + fixups.datasize) ∧
      (chainedFixupsHeader f fixups.dataoff).importsOffset +
        4 * (chainedFixupsHeader f fixups.dataoff).importsCount.toNat ≤ fixups.datasize ∧
      ∀ i < (chainedFixupsHeader f fixups.dataoff).importsCount.toNat,
        CStringInside f (importNameAt f fixups.dataoff (BitVec.ofNat 32 i)))
    ⟨fun ⟨⟨h1, h2, h3⟩, h4, h5⟩ => ⟨h1, h2, h3, h4, h5⟩, fun h => ⟨⟨h.1, h.2, h.3⟩, h.4, h.5⟩⟩

/-- The commands lie in the file, with the names of their libraries; so do the symbol tables and the
payloads they point at. -/
structure TablesInside (f : File) : Prop where
  header : machHeader64Size ≤ f.length
  fits : ∀ p ∈ cmdOffsets f, Executable.CommandFits f p
  symtabs : ∀ symtab ∈ symtabsOf (commands f), symtab.Inside f nlist64Size
  payloads : ∀ fixups ∈ chainedOf (commands f), PayloadInside f fixups

end Maloader
