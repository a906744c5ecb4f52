import Maloader.Lib.Fallible
import Maloader.Loader.Spec
import Maloader.Loader32.Model

/-!
# The commands of the 32-bit loader

The pointer of `loader` moves by a rule that reads the file alone. The run over any file is a fold
over the commands that the pointer comes to.

* `Command32`, `commandAt32`, `execCommand32`: a command as `loader` reads it, and its handler.
* `loaderAdvance32`, `loaderStep32_eq`: one turn; `commands32`: the commands of a run.
* **`loader_eq`**: the whole run.
* **`loaderStep32_eq_loaderStep`**: the commands on which the two loaders do the same.
-/

namespace Maloader

open ByteLib FallibleLib

/-! ## Commands -/

/-- A load command with what its handler in `loader` reads of it. -/
inductive Command32
  | segment (seg : SegmentCommand)
  | dyldInfo (info : DyldInfoCommand)
  | symtab (symtab : SymtabCommand)
  | loadDylib (name : CString)
  | other
  deriving DecidableEq

/-- The command at offset `p`. -/
def commandAt32 (f : File) (p : ℕ) : Command32 :=
  let cmd := (loadCommandAt f p).cmd
  if cmd = lcSegment then .segment (segmentCommand f p)
  else if cmd &&& 0xFF#32 = lcDyldInfo then .dyldInfo (dyldInfoCommand f p)
  else if cmd = lcSymtab then .symtab (symtabCommand f p)
  else if cmd = lcDysymtab then .other
  else if cmd = lcLoadDylinker then .other
  else if cmd = lcLoadDylib then .loadDylib (dylibName f p)
  else .other

/-- The effect of a segment command, apart from the pointer. -/
def execSegment32 (E : Env) (f : File) (c : MachContext) (seg : SegmentCommand) : Option MachContext :=
  (if seg.isText then mapText E f c seg else some c).map fun c =>
    { c with segments := c.segments.push (segmentRecord32 c seg) }

/-- The effect of a command, apart from the pointer. -/
def execCommand32 (E : Env) (f : File) (c : MachContext) : Command32 → Option MachContext
  | .segment seg => execSegment32 E f c seg
  | .dyldInfo info => some (loadDyldInfo E f c info)
  | .symtab symtab => some (loadSymtab32 f c symtab)
  | .loadDylib name => some (dylibListRetriever c name)
  | .other => some c

variable (E : Env) (f : File)

/-! ## Symbols -/

/-- The symbols of a table of `struct nlist`. -/
def symtabEntries32 (symtab : SymtabCommand) : List Nlist :=
  (List.range symtab.nsyms).map fun i => nlist f (symtab.symoff + nlistSize * i)

/-- The symbols named `_main`, in order. -/
def mainSymbols32 (symtab : SymtabCommand) : List Nlist :=
  (symtabEntries32 f symtab).filter fun sym => cstrAt f (symtab.stroff + sym.nStrx) = mainSymbol

/-- The entry point a symbol gives. -/
def entryOf32 (c : MachContext) (sym : Nlist) : Addr :=
  c.imgAddr + (sym.nValue.zeroExtend 64 - c.vAddr)

theorem symtabLoop32_eq (symtab : SymtabCommand) (n i : ℕ) (c : MachContext) :
    symtabLoop32 f symtab n i c =
      { c with
        entryPoint := (((((List.range' i n).map fun i =>
          nlist f (symtab.symoff + nlistSize * i)).filter fun sym =>
            cstrAt f (symtab.stroff + sym.nStrx) = mainSymbol).getLast?).map (entryOf32 c)).or
              c.entryPoint } := by
  induction n generalizing i c with
  | zero => rfl
  | succ n ih =>
    rw [symtabLoop32, ih, List.range'_succ, List.map_cons]
    by_cases h : cstrAt f (symtab.stroff + (nlist f (symtab.symoff + nlistSize * i)).nStrx) =
        mainSymbol
    · rw [if_pos h, List.filter_cons_of_pos (by simpa using h), List.getLast?_cons]
      cases (List.getLast? _ : Option Nlist) <;> rfl
    · rw [if_neg h, List.filter_cons_of_neg (by simpa using h)]

theorem loadSymtab32_eq (c : MachContext) (symtab : SymtabCommand) :
    loadSymtab32 f c symtab =
      { c with
        entryPoint := ((mainSymbols32 f symtab).getLast?.map (entryOf32 c)).or c.entryPoint } := by
  rw [loadSymtab32, symtabLoop32_eq, mainSymbols32, symtabEntries32, List.range_eq_range']

/-! ## One turn -/

theorem mapText_atPtr (c : MachContext) (p : ℕ) (seg : SegmentCommand) :
    mapText E f (c.atPtr p) seg = (mapText E f c seg).map (·.atPtr p) := by
  have hmmaps : (c.atPtr p).mmaps = c.mmaps := rfl
  unfold mapText
  rw [hmmaps]
  dsimp only
  cases E.mmap c.mmaps (seg.vmaddr.zeroExtend 64) seg.mapLength <;> rfl

theorem execCommand32_atPtr (c : MachContext) (p : ℕ) (cmd : Command32) :
    execCommand32 E f (c.atPtr p) cmd = (execCommand32 E f c cmd).map (·.atPtr p) := by
  cases cmd with
  | segment seg =>
    simp only [execCommand32, execSegment32]
    split_ifs with htext
    · rw [mapText_atPtr, Option.map_map, Option.map_map]
      rfl
    · rfl
  | dyldInfo info =>
    simp only [execCommand32, loadDyldInfo_eq]
    rfl
  | symtab symtab =>
    simp only [execCommand32, loadSymtab32_eq]
    rfl
  | loadDylib name => rfl
  | other => rfl

theorem loadSections32_eq (n : ℕ) (c : MachContext) :
    loadSections32 n c = c.atPtr (c.ptr + sectionSize * n) := by
  induction n generalizing c with
  | zero => rfl
  | succ n ih =>
    rw [loadSections32, ih]
    exact congrArg c.atPtr (show c.ptr + sectionSize + sectionSize * n = _ by ring)

/-- How far a turn moves the pointer from `p`. -/
def loaderAdvance32 (f : File) (p : ℕ) : ℕ :=
  if (loadCommandAt f p).cmd = lcSegment ∧ (segmentCommand f p).nsects.toInt ≠ 0 then
    segmentCommandSize + sectionSize * (segmentCommand f p).nsects.toInt.toNat
  else (loadCommandAt f p).cmdsize.toNat

theorem ptr_execSegment32 {c d : MachContext} {seg : SegmentCommand}
    (h : execSegment32 E f c seg = some d) : d.ptr = c.ptr := by
  have hself : execSegment32 E f c seg = (execSegment32 E f c seg).map (·.atPtr c.ptr) :=
    execCommand32_atPtr E f c c.ptr (.segment seg)
  rw [h, Option.map_some, Option.some_inj] at hself
  rw [hself, ptr_atPtr]

theorem loaderStep32_eq (c : MachContext) : loaderStep32 E f c =
    (execCommand32 E f c (commandAt32 f c.ptr)).map (·.atPtr (c.ptr + loaderAdvance32 f c.ptr)) := by
  by_cases hseg : (loadCommandAt f c.ptr).cmd = lcSegment
  · have hload : loadSegment E f c = (execSegment32 E f c (segmentCommand f c.ptr)).map fun d =>
        ((segmentCommand f c.ptr).nsects.toInt, d) := by
      rw [loadSegment, execSegment32, Option.map_map]
      rfl
    simp only [loaderStep32, commandAt32, execCommand32, loaderAdvance32, hseg, if_true, true_and,
      hload, Option.map_map]
    cases hexec : execSegment32 E f c (segmentCommand f c.ptr) with
    | none => rfl
    | some d =>
      have hptr := ptr_execSegment32 E f hexec
      simp only [Option.map_some, Function.comp_apply, loadSections32_eq, hptr]
      split_ifs with h0
      · rw [← Nat.add_assoc]
        rfl
      · rfl
  · have hadvance : loaderAdvance32 f c.ptr = (loadCommandAt f c.ptr).cmdsize.toNat :=
      if_neg fun h => hseg h.1
    simp only [loaderStep32, commandAt32, hadvance, if_neg hseg]
    split_ifs
    · simp only [execCommand32, loadDyldInfo_eq, Option.map_some]
      rfl
    · simp only [execCommand32, loadSymtab32_eq, Option.map_some]
      rfl
    all_goals rfl

/-! ## The run -/

/-- The offsets of the commands that `loader` comes to. -/
def loaderOffsets32 : List ℕ :=
  List.iterate (fun p => p + loaderAdvance32 f p) machHeaderSize (machHeader f).ncmds.toNat

/-- The commands that `loader` comes to. -/
def commands32 : List Command32 := (loaderOffsets32 f).map (commandAt32 f)

theorem loaderLoop32_eq_runFor (n : ℕ) : loaderLoop32 E f n = runFor (loaderStep32 E f) n := by
  induction n with
  | zero => rfl
  | succ n ih =>
    funext c
    rw [loaderLoop32, ih, runFor]

/-- **The run is a fold over the commands** it comes to, whatever the file. -/
theorem loader_eq (hexec : (machHeader f).filetype = mhExecute) (c : MachContext) :
    loader E f c = ((commands32 f).foldlM (execCommand32 E f) c).map fun d => (-1, d.atPtr
      ((fun p => p + loaderAdvance32 f p)^[(machHeader f).ncmds.toNat] machHeaderSize)) := by
  have hrun := runFor_eq_foldlM MachContext.ptr MachContext.atPtr (fun p => p + loaderAdvance32 f p)
    (fun c p => execCommand32 E f c (commandAt32 f p)) (fun _ _ => rfl) (fun _ _ _ => rfl) (fun _ => rfl)
    (fun c p q => execCommand32_atPtr E f c p (commandAt32 f q)) (loaderStep32_eq E f)
    (machHeader f).ncmds.toNat (c.atPtr machHeaderSize)
  have hstart : loader E f c = (loaderLoop32 E f (machHeader f).ncmds.toNat
      (c.atPtr machHeaderSize)).map fun d => (-1, d) := if_neg (not_not.mpr hexec)
  have hcmds := foldlM_hom (φ := (MachContext.atPtr · machHeaderSize))
    (fun c cmd => execCommand32_atPtr E f c machHeaderSize cmd) (commands32 f) c
  rw [hstart, loaderLoop32_eq_runFor, hrun, ← List.foldlM_map, ptr_atPtr, ← loaderOffsets32,
    ← commands32, hcmds, Option.map_map, Option.map_map]
  rfl

/-! ## The two loaders -/

/-- A command word that only one of the loaders knows, or that they read differently. -/
def WidthSpecific (cmd : BitVec 32) : Prop :=
  cmd = lcSegment ∨ cmd = lcSegment64 ∨ cmd = lcSymtab ∨ cmd = lcDyldChainedFixups

instance (cmd : BitVec 32) : Decidable (WidthSpecific cmd) := by
  unfold WidthSpecific; infer_instance

/-- **The loaders do the same** on every other command. -/
theorem loaderStep32_eq_loaderStep {c : MachContext}
    (h : ¬ WidthSpecific (loadCommandAt f c.ptr).cmd) :
    loaderStep32 E f c = some (loaderStep E f c) := by
  simp only [WidthSpecific, not_or] at h
  obtain ⟨hseg, hseg64, hsym, hchained⟩ := h
  simp only [loaderStep32, loaderStep, commandKind, if_neg hseg, if_neg hseg64, if_neg hsym,
    if_neg hchained]
  split_ifs <;> rfl

end Maloader
