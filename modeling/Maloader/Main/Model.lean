import Maloader.Host.Model
import Maloader.Loader32.Model

/-!
# The program

`main` maps the file, loads it, binds it and calls the entry point. Whatever fails behind the magic
number is reported on `stderr` and otherwise ignored.

* `System`: what a run of the program depends on besides its arguments;
* `openExec`, `determineBit`: `none` where they `exit(-1)`; `runLoader`: the table `l`;
* `Warning`, `loadWarnings`, `bindWarnings`: the reports;
* `Outcome`, `handOver`, `main`.
-/

namespace Maloader

open ByteLib

/-- The surroundings of a run, the host's libraries, and the files that can be opened and mapped. -/
structure System where
  env : Env
  host : Host
  file : CString → Option File

/-- The surroundings of the loader: imports are resolved on the host. -/
def System.loaderEnv (S : System) : Env := S.host.env S.env

/-- `none` where the file cannot be mapped. -/
def openExec (S : System) (filename : CString) : Option File := S.file filename

/-- `none` for any other magic number. -/
def determineBit (f : File) : Option ℕ :=
  let magic := u32 f 0
  if magic = mhMagic then some 32 else if magic = mhMagic64 then some 64 else none

/-- `l[bit >> 6](context)`; `none` where the loader writes to `MAP_FAILED`. -/
def runLoader (E : Env) (f : File) (bit : ℕ) (c : MachContext) : Option (ℤ × MachContext) :=
  if bit >>> 6 = 0 then loader E f c else some (loader64 E f c)

/-! ## Reports -/

/-- The messages of `main` on `stderr`, with the values they print. -/
inductive Warning
  | loaderFailed (bit : ℕ) (result : ℤ)
  | imageNotMapped (imgAddr vAddr : Addr)
  | noEntryPoint
  | unresolvedChainedBinds (n : BitVec 32)
  | bindFailed (result : ℤ)
  deriving DecidableEq

/-- What `entry_point` holds; it starts as `NULL`. -/
def MachContext.entry (c : MachContext) : Addr := c.entryPoint.getD 0#64

/-- The reports between loading and binding. -/
def loadWarnings (bit : ℕ) (result : ℤ) (c : MachContext) : List Warning :=
  (if result ≠ 0 then [.loaderFailed bit result] else []) ++
    (if c.imgAddr = 0#64 ∨ c.vAddr = 0#64 then [.imageNotMapped c.imgAddr c.vAddr] else []) ++
    (if c.entry = 0#64 then [.noEntryPoint] else []) ++
    (if c.chainedUnresolvedBindCount ≠ 0#32 then
      [.unresolvedChainedBinds c.chainedUnresolvedBindCount] else [])

/-- The report behind binding. -/
def bindWarnings (result : ℤ) : List Warning := if result ≠ 0 then [.bindFailed result] else []

/-! ## The run -/

/-- How a run gets to the program it loads, or ends before. -/
inductive Outcome
  /-- `main` returns. -/
  | returned (code : ℤ)
  /-- A function of the loader calls `exit`. -/
  | exited (code : ℤ)
  /-- The loader writes to `MAP_FAILED`, or reads a name at `NULL`. A file and a memory have a byte at
  every place: reads behind the file, stores outside mapped memory and a call of `NULL` do not end here. -/
  | crashed
  /-- The address in `entry_point` is called, with what has been reported until then. -/
  | called (entry : Addr) (argc : ℕ) (argv : List CString) (warnings : List Warning) (c : MachContext)

/-- `main` behind `determineBit`, with the arguments that are handed on. -/
def handOver (S : System) (f : File) (bit : ℕ) (argv : List CString) (m : Mem 64) : Outcome :=
  match runLoader S.loaderEnv f bit (MachContext.zero m) with
  | none => .crashed
  | some (loaderResult, c) =>
    match doBind S.host c with
    | none => .crashed
    | some (bindResult, d) =>
      .called d.entry argv.length argv (loadWarnings bit loaderResult c ++ bindWarnings bindResult) d

/-- `main` with `argv` behind the name of the loader itself, over a given process memory. -/
def main (S : System) (argv : List CString) (m : Mem 64) : Outcome :=
  match argv with
  | [] => .returned (-1)
  | filename :: _ =>
    match openExec S filename with
    | none => .exited (-1)
    | some memblock =>
      match determineBit memblock with
      | none => .exited (-1)
      | some bit => handOver S memblock bit argv m

end Maloader
