import Maloader.Bind.Rows
import Maloader.Loader.Model
import Maloader.Chained.Relate

/-!
# What each handler touches

Every handler of the command loop reads and writes its own part of the context. The handlers of
symbol tables, bind tables and library names have closed forms; the handler of segments works on a
part of the context and carries the rest along.

* `mainSymbols`, **`loadSymtab_eq`**: the last symbol named `_main` decides.
* `dyldInfoRecords`, `dyldInfoRows`, `loadDyldInfo_eq`: both streams append their records.
* `execSegment`: a segment command without its pointer moves; `SegmentCommand64.CopiedIn`: when it
  copies bytes.
* `MachContext.withLoad`, **`execSegment_withLoad`**: the part a segment command works on.
-/

namespace Maloader

open ByteLib

variable (E : Env) (f : File)

/-! ## Symbol tables -/

/-- The symbols of a table. -/
def symtabEntries (symtab : SymtabCommand) : List Nlist64 :=
  (List.range symtab.nsyms).map fun i => nlist64 f (symtab.symoff + nlist64Size * i)

/-- The symbols named `_main`, in order. -/
def mainSymbols (symtab : SymtabCommand) : List Nlist64 :=
  (symtabEntries f symtab).filter fun nlist => cstrAt f (symtab.stroff + nlist.nStrx) = mainSymbol

/-- The entry point a symbol gives. -/
def entryOf (c : MachContext) (nlist : Nlist64) : Addr := nlist.nValue - c.vAddr + c.imgAddr

theorem symtabLoop_eq (symtab : SymtabCommand) (n i : ℕ) (c : MachContext) :
    symtabLoop f symtab n i c =
      { c with
        entryPoint := (((((List.range' i n).map fun i =>
          nlist64 f (symtab.symoff + nlist64Size * i)).filter fun nlist =>
            cstrAt f (symtab.stroff + nlist.nStrx) = mainSymbol).getLast?).map (entryOf c)).or
              c.entryPoint } := by
  induction n generalizing i c with
  | zero => rfl
  | succ n ih =>
    rw [symtabLoop, ih, List.range'_succ, List.map_cons]
    by_cases h : cstrAt f (symtab.stroff + (nlist64 f (symtab.symoff + nlist64Size * i)).nStrx) =
        mainSymbol
    · rw [if_pos h, List.filter_cons_of_pos (by simpa using h), List.getLast?_cons]
      cases (List.getLast? _ : Option Nlist64) <;> rfl
    · rw [if_neg h, List.filter_cons_of_neg (by simpa using h)]

/-- **The last symbol named `_main` decides**, or the entry point stays. -/
theorem loadSymtab_eq (c : MachContext) (symtab : SymtabCommand) :
    loadSymtab f c symtab =
      { c with
        entryPoint := ((mainSymbols f symtab).getLast?.map (entryOf c)).or c.entryPoint } := by
  rw [loadSymtab, symtabLoop_eq, mainSymbols, symtabEntries, List.range_eq_range']

/-! ## Bind tables -/

/-- The records of the two streams of a bind table. -/
def dyldInfoRecords (t : SegmentTable) (info : DyldInfoCommand) : List BindInfo :=
  bindRecords E f t info.bindOff (info.bindOff + info.bindSize) ++
    bindRecords E f t info.lazyBindOff (info.lazyBindOff + info.lazyBindSize)

/-- The rows of the two streams of a bind table. -/
def dyldInfoRows (info : DyldInfoCommand) : List BindRegs :=
  streamRows E f (info.bindOff + info.bindSize) info.bindOff ++
    streamRows E f (info.lazyBindOff + info.lazyBindSize) info.lazyBindOff

theorem dyldInfoRecords_eq_rows (t : SegmentTable) (info : DyldInfoCommand) :
    dyldInfoRecords E f t info = (dyldInfoRows E f info).map (BindRegs.record t) := by
  rw [dyldInfoRecords, bindRecords_eq_rows, bindRecords_eq_rows, dyldInfoRows, List.map_append]

theorem loadDyldInfo_eq (c : MachContext) (info : DyldInfoCommand) :
    loadDyldInfo E f c info =
      { c with bList := c.bList ++ dyldInfoRecords E f c.segments info } := by
  rw [loadDyldInfo, bindListRetriever_eq, bindListRetriever_eq, dyldInfoRecords, List.append_assoc]

/-! ## Segments -/

/-- The effect of a segment command, apart from the pointer. -/
def execSegment (c : MachContext) (seg : SegmentCommand64) : MachContext :=
  let c := copySegment f (ensureImageMapping64 E f c).2 seg
  { c with segments := c.segments.push (segmentRecord c seg) }

theorem loadSegment64_eq (c : MachContext) :
    loadSegment64 E f c = ((segmentCommand64 f c.ptr).nsects.toInt,
      execSegment E f c (segmentCommand64 f c.ptr)) := rfl

/-- `d` with the part of `c` that segment commands work on. -/
def MachContext.withLoad (d c : MachContext) : MachContext :=
  { d with
    imgAddr := c.imgAddr
    vAddr := c.vAddr
    segments := c.segments
    mem := c.mem
    mmaps := c.mmaps
    trace := c.trace }

theorem withLoad_self (c : MachContext) : c.withLoad c = c := rfl

theorem ensureImageMapping64_withLoad (d c : MachContext) :
    (ensureImageMapping64 E f (d.withLoad c)).2 = d.withLoad (ensureImageMapping64 E f c).2 := by
  by_cases himg : c.imgAddr = 0#64
  · by_cases hhull : (hull f).1 = uint64Max ∨ (hull f).2 ≤ (hull f).1
    · simp [ensureImageMapping64, MachContext.withLoad, himg, hhull]
    · cases hmap : E.mmap c.mmaps (hull f).1 (alignMemory ((hull f).2 - (hull f).1) 0x1000#64) <;>
        simp [ensureImageMapping64, MachContext.withLoad, himg, hhull, hmap]
  · simp [ensureImageMapping64, MachContext.withLoad, himg]

/-- The bytes of the segment are copied: it is not `__PAGEZERO`, it has some, and the image is mapped. -/
def SegmentCommand64.CopiedIn (seg : SegmentCommand64) (c : MachContext) : Prop :=
  ¬ seg.isPagezero ∧ seg.filesize ≠ 0#64 ∧ c.imgAddr ≠ 0#64 ∧ c.vAddr ≠ 0#64

theorem copySegment_of_copied {c : MachContext} {seg : SegmentCommand64} (h : seg.CopiedIn c) :
    copySegment f c seg =
      let dest := c.imgAddr + (seg.vmaddr - c.vAddr)
      { c with
        mem := memcpy c.mem dest f seg.fileoff.toNat seg.filesize.toNat
        trace := c.trace ++ [.copy dest seg.fileoff.toNat seg.filesize.toNat] } := if_pos h

theorem copySegment_of_not_copied {c : MachContext} {seg : SegmentCommand64}
    (h : ¬ seg.CopiedIn c) : copySegment f c seg = c := if_neg h

theorem copySegment_withLoad (d c : MachContext) (seg : SegmentCommand64) :
    copySegment f (d.withLoad c) seg = d.withLoad (copySegment f c seg) := by
  unfold copySegment
  rw [apply_ite (MachContext.withLoad d)]
  rfl

/-- **A segment command works on its part of the context.** -/
theorem execSegment_withLoad (d c : MachContext) (seg : SegmentCommand64) :
    execSegment E f (d.withLoad c) seg = d.withLoad (execSegment E f c seg) := by
  unfold execSegment
  rw [ensureImageMapping64_withLoad, copySegment_withLoad]
  rfl

end Maloader
