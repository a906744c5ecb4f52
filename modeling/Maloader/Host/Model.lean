import Maloader.Loader.Model

/-!
# Host symbols

The two resolvers of the loader, over a host given by its `dlopen` and `dlsym`.

* `normalizeMachoSymbolName`, `darwinShim`, `resolveMachoImportSymbol`: the resolver of the chained
  path;
* `bindRecord`, `bindLibrary`, `doBind`: the classic path, every library over every record. A record
  without a name that passes the address filter is dereferenced at `NULL`: `none`.
-/

namespace Maloader

open ByteLib

/-- The loader's own functions and objects that binding hands out. -/
inductive LoaderSymbol
  | hostMmapForDarwin | guard | malNSGetEnviron | malDarwinError | malStackChkGuard | malStdinp
  | malStdoutp | malStderrp | malChkstkDarwin | malDarwinCheckFdSetOverflow | malMemsetPattern16
  | malHErrno | malAtexit
  deriving DecidableEq, Repr

/-- A host: handles and symbol addresses are `0` when `dlopen` and `dlsym` fail. -/
structure Host where
  dlopen : CString → Addr
  dlsym : Addr → CString → Addr
  addressOf : LoaderSymbol → Addr

/-- `RTLD_DEFAULT`. -/
def rtldDefault : Addr := 0#64

/-- The host's C library. -/
def libcName : CString := lit "libc.so.6"

/-- The host's mathematical library. -/
def libmName : CString := lit "libm.so.6"

/-- One leading underscore dropped. -/
def dropUnderscore : CString → CString
  | b :: s => if b = 0x5f#8 then s else b :: s
  | [] => []

/-! ## The chained path -/

/-- `snprintf` keeps `outSize - 1` bytes; the name is then cut at the first `$`. -/
def normalizeMachoSymbolName (machoName : CString) (outSize : ℕ) : CString :=
  ((dropUnderscore machoName).take (outSize - 1)).takeWhile (· ≠ 0x24#8)

/-- The `strcmp` chain of `resolve_macho_import_symbol`. -/
def darwinShim (namebuf : CString) : Option LoaderSymbol :=
  if namebuf = lit "_NSGetEnviron" ∨ namebuf = lit "__NSGetEnviron" then some .malNSGetEnviron
  else if namebuf = lit "__error" then some .malDarwinError
  else if namebuf = lit "__stack_chk_guard" then some .malStackChkGuard
  else if namebuf = lit "__stdinp" then some .malStdinp
  else if namebuf = lit "__stdoutp" then some .malStdoutp
  else if namebuf = lit "__stderrp" then some .malStderrp
  else if namebuf = lit "__chkstk_darwin" then some .malChkstkDarwin
  else if namebuf = lit "__darwin_check_fd_set_overflow" then some .malDarwinCheckFdSetOverflow
  else if namebuf = lit "memset_pattern16" then some .malMemsetPattern16
  else if namebuf = lit "h_errno" then some .malHErrno
  else if namebuf = lit "atexit" then some .malAtexit
  else none

/-- `sizeof(namebuf)`. -/
def namebufSize : ℕ := 256

/-- A shim of the loader, or what libc, libm or the global scope has, in this order. -/
def resolveMachoImportSymbol (H : Host) (machoName : Option CString) : Addr :=
  match machoName with
  | none => 0#64
  | some machoName =>
    let namebuf := normalizeMachoSymbolName machoName namebufSize
    match darwinShim namebuf with
    | some symbol => H.addressOf symbol
    | none =>
      let libc := H.dlopen libcName
      let libm := H.dlopen libmName
      if libc ≠ 0#64 ∧ H.dlsym libc namebuf ≠ 0#64 then H.dlsym libc namebuf
      else if libm ≠ 0#64 ∧ H.dlsym libm namebuf ≠ 0#64 then H.dlsym libm namebuf
      else H.dlsym rtldDefault namebuf

/-- The surroundings of a run on a host. -/
def Host.env (H : Host) (E : Env) : Env :=
  { E with resolve := fun name => resolveMachoImportSymbol H (some name) }

/-! ## The classic path -/

/-- `*func_dest = value`. -/
def storeBind (c : MachContext) (address value : Addr) : MachContext :=
  { c with mem := store64 c.mem address value, trace := c.trace ++ [.store address value] }

/-- The body of the record loop. -/
def bindRecord (H : Host) (library : Addr) (c : MachContext) (r : BindInfo) : Option MachContext :=
  if r.address ≤ c.imgAddr then some c
  else
    match r.funcName with
    | none => none
    | some funcName =>
      let name := dropUnderscore funcName
      if name = lit "mmap" then some (storeBind c r.address (H.addressOf .hostMmapForDarwin))
      else if name = lit "__stack_chk_guard" then some (storeBind c r.address (H.addressOf .guard))
      else
        let initializer := H.dlsym library name
        if initializer = 0#64 then some c else some (storeBind c r.address initializer)

/-- The body of the library loop. -/
def bindLibrary (H : Host) (c : MachContext) (dylibName : CString) : Option MachContext :=
  let library := H.dlopen dylibName
  if library = 0#64 then some c else c.bList.foldlM (bindRecord H library) c

/-- The default libraries are appended; `none` where a name at `NULL` is read. -/
def doBind (H : Host) (c : MachContext) : Option (ℤ × MachContext) := do
  let c := dylibListRetriever (dylibListRetriever c libcName) libmName
  let c ← c.dList.foldlM (bindLibrary H) c
  return (0, c)

end Maloader
