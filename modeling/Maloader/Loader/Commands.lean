import Maloader.Loader.Handlers

/-!
# The load commands as a list

`loader_64` moves a pointer along the commands; two rules advance it. Where every segment command is
as long as its section headers say, both rules lead to the next command, and the walk is a fold over
the list of commands.

* `Command`, `commandAt`, `execCommand`: a command as the loader reads it, and its handler.
* `segmentsOf`, `infosOf`, `symtabsOf`, `dylibsOf`, `chainedOf`: the commands of one kind, in order.
* `cmdOffsets`, `commands`: where the commands stand, and the commands of a file.
* `WellSized`: every segment command has the size its sections need.
* `loaderAdvance`, `loaderStep_advance`: one turn, and how far it moves the pointer.
* **`loader64_eq`**: the whole walk.
-/

namespace Maloader

open ByteLib

/-! ## Commands -/

/-- A load command with what its handler reads of it. -/
inductive Command
  | segment64 (seg : SegmentCommand64)
  | dyldInfo (info : DyldInfoCommand)
  | symtab (symtab : SymtabCommand)
  | loadDylib (name : CString)
  | dyldChainedFixups (fixups : LinkeditDataCommand)
  | other
  deriving DecidableEq

/-- The command at offset `p`. -/
def commandAt (f : File) (p : ℕ) : Command :=
  match commandKind (loadCommandAt f p).cmd with
  | .segment64 => .segment64 (segmentCommand64 f p)
  | .dyldInfo => .dyldInfo (dyldInfoCommand f p)
  | .symtab => .symtab (symtabCommand f p)
  | .loadDylib => .loadDylib (dylibName f p)
  | .dyldChainedFixups => .dyldChainedFixups (linkeditDataCommand f p)
  | .dysymtab | .loadDylinker | .dyldExportsTrie | .other => .other

/-- The effect of a command, apart from the pointer. -/
def execCommand (E : Env) (f : File) (c : MachContext) : Command → MachContext
  | .segment64 seg => execSegment E f c seg
  | .dyldInfo info => loadDyldInfo E f c info
  | .symtab symtab => loadSymtab f c symtab
  | .loadDylib name => dylibListRetriever c name
  | .dyldChainedFixups fixups => dumpChainedFixups E f c fixups.dataoff fixups.datasize
  | .other => c

/-! ## The commands of one kind -/

/-- The segments, in order. -/
def segmentsOf (cmds : List Command) : List SegmentCommand64 :=
  cmds.filterMap fun cmd => match cmd with
    | .segment64 seg => some seg
    | _ => none

/-- The bind tables, in order. -/
def infosOf (cmds : List Command) : List DyldInfoCommand :=
  cmds.filterMap fun cmd => match cmd with
    | .dyldInfo info => some info
    | _ => none

/-- The symbol tables, in order. -/
def symtabsOf (cmds : List Command) : List SymtabCommand :=
  cmds.filterMap fun cmd => match cmd with
    | .symtab symtab => some symtab
    | _ => none

/-- The names of the libraries, in order. -/
def dylibsOf (cmds : List Command) : List CString :=
  cmds.filterMap fun cmd => match cmd with
    | .loadDylib name => some name
    | _ => none

/-- The chained fixups, in order. -/
def chainedOf (cmds : List Command) : List LinkeditDataCommand :=
  cmds.filterMap fun cmd => match cmd with
    | .dyldChainedFixups fixups => some fixups
    | _ => none

/-! ## The walk -/

/-- The offsets of the next `n` commands from `p` on. -/
def cmdWalk (f : File) : ℕ → ℕ → List ℕ
  | 0, _ => []
  | n + 1, p => p :: cmdWalk f n (p + (loadCommandAt f p).cmdsize.toNat)

/-- The offsets of the commands of a file. -/
def cmdOffsets (f : File) : List ℕ := cmdWalk f (machHeader64 f).ncmds.toNat machHeader64Size

/-- The commands of the file. -/
def commands (f : File) : List Command := (cmdOffsets f).map (commandAt f)

/-- The size of the segment command at `p` is that of its header and its section headers, which an
`int` can count. -/
def SegmentSized (f : File) (p : ℕ) : Prop :=
  (loadCommandAt f p).cmd = lcSegment64 → (segmentCommand64 f p).nsects.toNat < 2 ^ 31 ∧
    (loadCommandAt f p).cmdsize.toNat = 0x48 + section64Size * (segmentCommand64 f p).nsects.toNat

instance (f : File) (p : ℕ) : Decidable (SegmentSized f p) := by
  unfold SegmentSized; infer_instance

/-- The sizes of all segment commands are right. -/
def WellSized (f : File) : Prop := ∀ p ∈ cmdOffsets f, SegmentSized f p

instance (f : File) : Decidable (WellSized f) := by
  unfold WellSized; infer_instance

/-! ## One turn -/

/-- The context with the pointer at `p`. -/
def MachContext.atPtr (c : MachContext) (p : ℕ) : MachContext := { c with ptr := p }

@[simp] theorem ptr_atPtr (c : MachContext) (p : ℕ) : (c.atPtr p).ptr = p := rfl

@[simp] theorem bList_atPtr (c : MachContext) (p : ℕ) : (c.atPtr p).bList = c.bList := rfl

@[simp] theorem segments_atPtr (c : MachContext) (p : ℕ) :
    (c.atPtr p).segments = c.segments := rfl

@[simp] theorem trace_atPtr (c : MachContext) (p : ℕ) : (c.atPtr p).trace = c.trace := rfl

theorem atPtr_withLoad (d c : MachContext) (p : ℕ) :
    (d.atPtr p).withLoad c = (d.withLoad c).atPtr p := rfl

@[simp] theorem atPtr_atPtr (c : MachContext) (p q : ℕ) : (c.atPtr p).atPtr q = c.atPtr q := rfl

variable (E : Env) (f : File)

theorem execSegment_atPtr (c : MachContext) (p : ℕ) (seg : SegmentCommand64) :
    execSegment E f (c.atPtr p) seg = (execSegment E f c seg).atPtr p := by
  have h : execSegment E f c seg = c.withLoad (execSegment E f c seg) := execSegment_withLoad E f c c seg
  have hp : execSegment E f (c.atPtr p) seg = (c.atPtr p).withLoad (execSegment E f c seg) :=
    execSegment_withLoad E f (c.atPtr p) c seg
  rw [hp, h]
  rfl

theorem dumpChainedFixups_atPtr (c : MachContext) (p dataoff datasize : ℕ) :
    dumpChainedFixups E f (c.atPtr p) dataoff datasize =
      (dumpChainedFixups E f c dataoff datasize).atPtr p := by
  have h : dumpChainedFixups E f c dataoff datasize =
      c.withImage (dumpChainedFixups E f c dataoff datasize) :=
    dumpChainedFixups_withImage E f c c dataoff datasize
  have hp : dumpChainedFixups E f (c.atPtr p) dataoff datasize =
      (c.atPtr p).withImage (dumpChainedFixups E f c dataoff datasize) :=
    dumpChainedFixups_withImage E f (c.atPtr p) c dataoff datasize
  rw [hp, h]
  rfl

theorem execCommand_atPtr (c : MachContext) (p : ℕ) (cmd : Command) :
    execCommand E f (c.atPtr p) cmd = (execCommand E f c cmd).atPtr p := by
  cases cmd with
  | segment64 seg => exact execSegment_atPtr E f c p seg
  | dyldInfo info =>
    simp only [execCommand, loadDyldInfo_eq]
    rfl
  | symtab symtab =>
    simp only [execCommand, loadSymtab_eq]
    rfl
  | loadDylib name => rfl
  | dyldChainedFixups fixups => exact dumpChainedFixups_atPtr E f c p _ _
  | other => rfl

theorem execCommand_ptr (c : MachContext) (cmd : Command) :
    (execCommand E f c cmd).ptr = c.ptr := by
  have h : execCommand E f c cmd = (execCommand E f c cmd).atPtr c.ptr :=
    execCommand_atPtr E f c c.ptr cmd
  rw [h]
  rfl

theorem loadSections_eq (n : ℕ) (c : MachContext) :
    loadSections n c = c.atPtr (c.ptr + section64Size * n) := by
  induction n generalizing c with
  | zero => rfl
  | succ n ih =>
    rw [loadSections, ih]
    exact congrArg c.atPtr (show c.ptr + section64Size + section64Size * n = _ by ring)

theorem commandKind_word (cmd : BitVec 32) :
    (commandKind cmd = .segment64 → cmd = lcSegment64) ∧
      (commandKind cmd = .dyldInfo → cmd &&& 0xFF#32 = lcDyldInfo) ∧
      (commandKind cmd = .symtab → cmd = lcSymtab) ∧
      (commandKind cmd = .loadDylib → cmd = lcLoadDylib) ∧
      (commandKind cmd = .dyldChainedFixups → cmd = lcDyldChainedFixups) := by
  unfold commandKind
  split_ifs <;> simp_all

theorem commandKind_eq_segment64 {cmd : BitVec 32} (h : commandKind cmd = .segment64) :
    cmd = lcSegment64 := (commandKind_word cmd).1 h

theorem loaderStep_of_ne {c : MachContext}
    (hkind : commandKind (loadCommandAt f c.ptr).cmd ≠ .segment64) :
    loaderStep E f c = (execCommand E f c (commandAt f c.ptr)).atPtr
      ((execCommand E f c (commandAt f c.ptr)).ptr + (loadCommandAt f c.ptr).cmdsize.toNat) := by
  unfold loaderStep commandAt
  dsimp only
  generalize commandKind (loadCommandAt f c.ptr).cmd = kind at hkind
  cases kind with
  | segment64 => exact absurd rfl hkind
  | _ => rfl

/-- How far a turn moves the pointer from `p`: over the section headers of a segment that has any, by
the command size otherwise. -/
def loaderAdvance (f : File) (p : ℕ) : ℕ :=
  if commandKind (loadCommandAt f p).cmd = .segment64 ∧ (segmentCommand64 f p).nsects.toInt ≠ 0 then
    0x48 + section64Size * (segmentCommand64 f p).nsects.toInt.toNat
  else (loadCommandAt f p).cmdsize.toNat

theorem loaderStep_advance (c : MachContext) :
    loaderStep E f c =
      (execCommand E f c (commandAt f c.ptr)).atPtr (c.ptr + loaderAdvance f c.ptr) := by
  by_cases hkind : commandKind (loadCommandAt f c.ptr).cmd = .segment64
  · have hptr : (execSegment E f c (segmentCommand64 f c.ptr)).ptr = c.ptr :=
      execCommand_ptr E f c (.segment64 _)
    simp only [loaderStep, commandAt, loaderAdvance, hkind, true_and, loadSegment64_eq,
      loadSections_eq, hptr]
    split_ifs with h0
    · rw [← Nat.add_assoc]
      rfl
    · rfl
  · rw [loaderStep_of_ne E f hkind, execCommand_ptr, loaderAdvance, if_neg fun h => hkind h.1]

theorem loaderAdvance_of_sized {p : ℕ} (hs : SegmentSized f p) :
    loaderAdvance f p = (loadCommandAt f p).cmdsize.toNat := by
  unfold loaderAdvance
  split_ifs with h
  · obtain ⟨hn, hsize⟩ := hs (commandKind_eq_segment64 h.1)
    rw [BitVec.toInt_eq_toNat_of_lt (by omega), Int.toNat_natCast, hsize]
  · rfl

/-- **One turn of the loop** runs the command's handler and goes to the next command. -/
theorem loaderStep_eq {c : MachContext} (hs : SegmentSized f c.ptr) :
    loaderStep E f c = (execCommand E f c (commandAt f c.ptr)).atPtr
      (c.ptr + (loadCommandAt f c.ptr).cmdsize.toNat) := by
  rw [loaderStep_advance, loaderAdvance_of_sized f hs]

/-! ## The whole walk -/

/-- The offset behind the next `n` commands from `p` on. -/
def cmdEnd (f : File) : ℕ → ℕ → ℕ
  | 0, p => p
  | n + 1, p => cmdEnd f n (p + (loadCommandAt f p).cmdsize.toNat)

theorem foldl_execCommand_atPtr (l : List Command) (c : MachContext) (p : ℕ) :
    l.foldl (execCommand E f) (c.atPtr p) = (l.foldl (execCommand E f) c).atPtr p :=
  List.foldl_hom (MachContext.atPtr · p) fun c cmd => execCommand_atPtr E f c p cmd

theorem loaderLoop_eq (n : ℕ) (c : MachContext) (hs : ∀ p ∈ cmdWalk f n c.ptr, SegmentSized f p) :
    loaderLoop E f n c =
      (((cmdWalk f n c.ptr).map (commandAt f)).foldl (execCommand E f) c).atPtr
        (cmdEnd f n c.ptr) := by
  induction n generalizing c with
  | zero => rfl
  | succ n ih =>
    rw [cmdWalk] at hs ⊢
    have hstep := loaderStep_eq E f (hs c.ptr List.mem_cons_self)
    rw [loaderLoop, hstep, ih _ fun p hp => hs p (List.mem_cons_of_mem _ hp), List.map_cons,
      List.foldl_cons, foldl_execCommand_atPtr, atPtr_atPtr, ptr_atPtr, cmdEnd]

/-- **The walk is a fold over the commands** of the file. -/
theorem loader64_eq (hexec : (machHeader64 f).filetype = mhExecute) (hs : WellSized f)
    (c : MachContext) :
    loader64 E f c = (0, ((commands f).foldl (execCommand E f) c).atPtr
      (cmdEnd f (machHeader64 f).ncmds.toNat machHeader64Size)) := by
  have hloop := loaderLoop_eq E f (machHeader64 f).ncmds.toNat (c.atPtr machHeader64Size) hs
  rw [foldl_execCommand_atPtr] at hloop
  have hstart : loader64 E f c =
      (0, loaderLoop E f (machHeader64 f).ncmds.toNat (c.atPtr machHeader64Size)) :=
    if_neg (not_not.mpr hexec)
  rw [hstart, hloop, atPtr_atPtr, ptr_atPtr, commands, cmdOffsets]

end Maloader
