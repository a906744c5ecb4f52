import Maloader.Bind.Model
import Maloader.Segment.Model
import Maloader.Chained.Model

/-!
# The command loop

`loader_64` walks the load commands once and acts on each as it comes.

* `dylibListRetriever`, `symtabLoop`, `loadSymtab`, `loadDyldInfo`: the handlers inlined in the loop;
* `loaderStep`: one turn; `loaderLoop`, `loader64`.
-/

namespace Maloader

open ByteLib

/-- A name at the end of the library list. -/
def dylibListRetriever (c : MachContext) (dylibName : CString) : MachContext :=
  { c with dList := c.dList ++ [dylibName] }

/-- The name that marks the entry point. -/
def mainSymbol : CString := lit "_main"

/-- The symbol loop with `n` symbols left, at symbol `i`. -/
def symtabLoop (f : File) (symtab : SymtabCommand) : ℕ → ℕ → MachContext → MachContext
  | 0, _, c => c
  | n + 1, i, c =>
    let nlist := nlist64 f (symtab.symoff + nlist64Size * i)
    let c := if cstrAt f (symtab.stroff + nlist.nStrx) = mainSymbol then
      { c with entryPoint := some (nlist.nValue - c.vAddr + c.imgAddr) } else c
    symtabLoop f symtab n (i + 1) c

/-- The branch of `LC_SYMTAB`. -/
def loadSymtab (f : File) (c : MachContext) (symtab : SymtabCommand) : MachContext :=
  symtabLoop f symtab symtab.nsyms 0 c

/-- The branch of `LC_DYLD_INFO` and `LC_DYLD_INFO_ONLY`: the bind stream, then the lazy one. -/
def loadDyldInfo (E : Env) (f : File) (c : MachContext) (info : DyldInfoCommand) : MachContext :=
  let c := (bindListRetriever E f c info.bindOff (info.bindOff + info.bindSize)).2
  (bindListRetriever E f c info.lazyBindOff (info.lazyBindOff + info.lazyBindSize)).2

/-- One turn of the command loop. -/
def loaderStep (E : Env) (f : File) (c : MachContext) : MachContext :=
  let command := loadCommandAt f c.ptr
  let skip (c : MachContext) : MachContext := { c with ptr := c.ptr + command.cmdsize.toNat }
  match commandKind command.cmd with
  | .segment64 =>
    let r := loadSegment64 E f c
    if r.1 ≠ 0 then loadSections r.1.toNat { r.2 with ptr := r.2.ptr + 0x48 } else skip r.2
  | .dyldInfo => skip (loadDyldInfo E f c (dyldInfoCommand f c.ptr))
  | .symtab => skip (loadSymtab f c (symtabCommand f c.ptr))
  | .loadDylib => skip (dylibListRetriever c (dylibName f c.ptr))
  | .dyldChainedFixups =>
    let fixups := linkeditDataCommand f c.ptr
    skip (dumpChainedFixups E f c fixups.dataoff fixups.datasize)
  | .dysymtab | .loadDylinker | .dyldExportsTrie | .other => skip c

/-- The command loop with `n` commands left. -/
def loaderLoop (E : Env) (f : File) : ℕ → MachContext → MachContext
  | 0, c => c
  | n + 1, c => loaderLoop E f n (loaderStep E f c)

/-- The loader for 64-bit files; anything but an executable is refused. -/
def loader64 (E : Env) (f : File) (c : MachContext) : ℤ × MachContext :=
  let c := { c with ptr := 0 }
  let header := machHeader64 f
  if header.filetype ≠ mhExecute then (-1, c)
  else (0, loaderLoop E f header.ncmds.toNat { c with ptr := c.ptr + machHeader64Size })

end Maloader
