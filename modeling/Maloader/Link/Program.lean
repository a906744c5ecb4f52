import Maloader.Link.Image
import Maloader.Main.Image

/-!
# Writing a program into a file

A program has segments, pointers of both kinds, libraries and an entry point. It is laid out as a
header, its load commands, and what they point at, piece by piece.

* `ProgramSegment`, `Program`: what is to be written; `Program.image`: its image with the chain entries.
* `Program.pieces`, `pieceOff`, `cmds`, `Program.file`: the file.
* `Program.Fits`: the conditions on a program.
* `commands_file`, `hasAt_piece`, `fileEntry_file`: what is found in the file.
-/

namespace Maloader

open ByteLib

/-! ## Programs -/

/-- A segment, and how many of its bytes are in the file. -/
structure ProgramSegment where
  segname : List Byte
  vmaddr : ℕ
  vmsize : ℕ
  filesize : ℕ
  deriving DecidableEq

/-- `bytes` is the image without its pointers; `entry` is where `_main` is in the image. -/
structure Program where
  base : ℕ
  segments : List ProgramSegment
  bytes : ℕ → Byte
  payload : ChainedPayload
  bind : List BindOp
  lazyBind : List BindOp
  libraries : List CString
  entry : ℕ

/-- `__PAGEZERO` is no part of the image. -/
def ProgramSegment.isPart (s : ProgramSegment) : Bool := !(cstr s.segname == segPagezero)

/-- Offset `o` of the image is in the file-backed part of the segment. -/
def ProgramSegment.Backs (s : ProgramSegment) (base o : ℕ) : Prop :=
  s.vmaddr - base ≤ o ∧ o < s.vmaddr - base + s.filesize

namespace Program

variable (p : Program)

/-- The segments that make the image. -/
def parts : List ProgramSegment := p.segments.filter ProgramSegment.isPart

/-- The image with the entries of the chains. -/
def image : ℕ → Byte := view (p.payload.link (fun x => p.bytes x.toNat) 0#64) 0#64

/-- The rows of the two bind programs. -/
def rows : List BindRegs := bindRows p.bind p.lazyBind

/-- Where the slot of a row is in the image. -/
def slot (row : BindRegs) : ℕ :=
  (p.segments[row.segment.toNat]?).elim 0 fun s => s.vmaddr - p.base + row.offset.toNat

/-! ## The file -/

/-- What the file has of a segment. -/
def content (s : ProgramSegment) : File :=
  (List.range s.filesize).map fun i => p.image (s.vmaddr - p.base + i)

/-- What stands behind the commands. -/
def pieces : List File :=
  p.payload.encode :: encodeProgram p.bind :: encodeProgram p.lazyBind ::
    encodeNlist64 0 (p.base + p.entry) :: (mainSymbol ++ [0#8]) :: p.segments.map p.content

/-- The size of the load commands. -/
def commandsSize : ℕ :=
  72 * p.segments.length + 88 + 25 * p.libraries.length + p.libraries.flatten.length

/-- Where a piece stands. -/
def pieceOff (i : ℕ) : ℕ := machHeader64Size + p.commandsSize + blobOffset p.pieces i

/-- The command of a segment, whose bytes stand in a piece of their own. -/
def segmentCommand (i : ℕ) (s : ProgramSegment) : SegmentCommand64 where
  cmdsize := 72#32
  segname := s.segname
  vmaddr := BitVec.ofNat 64 s.vmaddr
  vmsize := BitVec.ofNat 64 s.vmsize
  fileoff := BitVec.ofNat 64 (p.pieceOff (i + 5))
  filesize := BitVec.ofNat 64 s.filesize
  nsects := 0#32

/-- The command of the pointers. -/
def fixupsCommand : LinkeditDataCommand := ⟨p.pieceOff 0, p.payload.encode.length⟩

/-- The command of the bind programs. -/
def infoCommand : DyldInfoCommand :=
  ⟨p.pieceOff 1, (encodeProgram p.bind).length, p.pieceOff 2, (encodeProgram p.lazyBind).length⟩

/-- The command of the only symbol. -/
def symtab : SymtabCommand := ⟨p.pieceOff 3, 1, p.pieceOff 4⟩

/-- The commands behind the segments. -/
def tableCommands : List Command :=
  .dyldChainedFixups p.fixupsCommand :: .dyldInfo p.infoCommand :: .symtab p.symtab ::
    p.libraries.map .loadDylib

/-- The commands of the segments, in order. -/
def segmentCommands : List SegmentCommand64 := p.segments.mapIdx p.segmentCommand

/-- All commands; the segments come first. -/
def cmds : List Command := p.segmentCommands.map .segment64 ++ p.tableCommands

/-- The file of a program. -/
def file : File :=
  encodeHeader p.cmds.length ++ (p.cmds.flatMap encodeCommand ++ p.pieces.flatten)

/-- The program fits into its file, and its image ends at `top`. -/
structure Fits (top : ℕ) : Prop where
  size : machHeader64Size + p.commandsSize + p.pieces.flatten.length < 2 ^ 32
  wide : ∀ s ∈ p.segments, s.segname.length = 16 ∧ s.vmaddr < 2 ^ 64 ∧ s.vmsize < 2 ^ 64
  part : ∀ s ∈ p.parts, 0 < s.vmsize ∧ s.filesize ≤ s.vmsize ∧ p.base ≤ s.vmaddr ∧
    s.vmaddr + s.vmsize ≤ top
  base_mem : ∃ s ∈ p.parts, s.vmaddr = p.base
  top_mem : ∃ s ∈ p.parts, s.vmaddr + s.vmsize = top
  top_lt : top < 2 ^ 64
  span_le : top - p.base ≤ 2 ^ 64 - 0x1000
  base_ne : p.base ≠ 0
  apart : p.parts.Pairwise fun s s' => s.vmaddr + s.vmsize ≤ s'.vmaddr ∨ s'.vmaddr + s'.vmsize ≤ s.vmaddr
  text : ∀ s ∈ p.parts, cstr s.segname = segText → s.vmaddr = p.base
  libraries : ∀ name ∈ p.libraries, 0#8 ∉ name
  entry : p.entry < top - p.base
  payload : p.payload.Fits (pageUp (top - p.base))
  recorded : ∀ i s, p.payload.segmentAt i = some s →
    ∃ s' ∈ (p.segments.take machLoaderMaxSegments)[i]?, s'.isPart
  backed : ∀ x ∈ p.payload.pointers, ∃ s ∈ p.parts, s.vmaddr - p.base ≤ x.1 ∧
    x.1 + 8 ≤ s.vmaddr - p.base + s.filesize
  slots : ∀ row ∈ p.rows, row.symbol ≠ none ∧ 0 ≤ row.segment ∧ p.slot row ≠ 0 ∧
    ∃ s, p.segments[row.segment.toNat]? = some s ∧ s.isPart ∧ row.offset.toNat + 8 ≤ s.vmsize
  slots_apart : p.rows.Pairwise fun row row' =>
    p.slot row + 8 ≤ p.slot row' ∨ p.slot row' + 8 ≤ p.slot row
  slots_pointers : ∀ row ∈ p.rows, ∀ x ∈ p.payload.pointers,
    p.slot row + 8 ≤ x.1 ∨ x.1 + 8 ≤ p.slot row

variable {p} {top : ℕ}

/-! ## What is found in it -/

theorem length_content (s : ProgramSegment) : (p.content s).length = s.filesize := by simp [content]

theorem pieceOff_add_le {i : ℕ} (hi : i < p.pieces.length) :
    p.pieceOff i + p.pieces[i].length ≤ machHeader64Size + p.commandsSize + p.pieces.flatten.length := by
  have hle := blobOffset_add_le hi
  rw [pieceOff]
  omega

theorem length_segmentCommand (h : p.Fits top) {seg : SegmentCommand64} (hseg : seg ∈ p.segmentCommands) :
    (encodeCommand (.segment64 seg)).length = 72 ∧ (Command.segment64 seg).Fits := by
  obtain ⟨i, hi, rfl⟩ := List.mem_mapIdx.mp hseg
  obtain ⟨hname, -⟩ := h.wide _ (List.getElem_mem hi)
  have hfits : (Command.segment64 (p.segmentCommand i p.segments[i])).Fits :=
    ⟨hname, Nat.two_pow_pos 31, rfl⟩
  obtain ⟨-, -, hlen⟩ := segmentCommand64_encode hfits
  exact ⟨hlen, hfits⟩

theorem Fits.fits_cmds (h : p.Fits top) : ∀ cmd ∈ p.cmds, cmd.Fits := by
  have hsize := h.size
  have hoff : ∀ i (hi : i < p.pieces.length), p.pieceOff i < 2 ^ 32 ∧ p.pieces[i].length < 2 ^ 32 :=
    fun i hi => by
      have hle := pieceOff_add_le hi
      omega
  have hpieces : 5 ≤ p.pieces.length := Nat.le_add_left 5 _
  intro cmd hcmd
  rcases List.mem_append.mp hcmd with hseg | htable
  · obtain ⟨seg, hmem, rfl⟩ := List.mem_map.mp hseg
    exact (length_segmentCommand h hmem).2
  · simp only [tableCommands, List.mem_cons, List.mem_map] at htable
    rcases htable with rfl | rfl | rfl | ⟨name, hname, rfl⟩
    · exact hoff 0 (by omega)
    · exact ⟨(hoff 1 (by omega)).1, (hoff 1 (by omega)).2, hoff 2 (by omega)⟩
    · exact ⟨(hoff 3 (by omega)).1, Nat.one_lt_two_pow (by norm_num), (hoff 4 (by omega)).1⟩
    · have hle := (List.sublist_flatten_of_mem hname).length_le
      have hpos : 0 < p.libraries.length := List.length_pos_of_mem hname
      rw [commandsSize] at hsize
      exact ⟨h.libraries name hname, by omega⟩

theorem Fits.length_cmds (h : p.Fits top) : (p.cmds.flatMap encodeCommand).length = p.commandsSize := by
  have hsegs : ((p.segmentCommands.map Command.segment64).flatMap encodeCommand).length =
      72 * p.segments.length := by
    rw [List.length_flatMap, List.map_map, List.sum_eq_card_nsmul _ 72]
    · simp [segmentCommands, Nat.mul_comm]
    · intro n hn
      obtain ⟨seg, hseg, rfl⟩ := List.mem_map.mp hn
      exact (length_segmentCommand h hseg).1
  have hlibs : ∀ libs : List CString, ((libs.map Command.loadDylib).flatMap encodeCommand).length =
      25 * libs.length + libs.flatten.length := by
    intro libs
    induction libs with
    | nil => rfl
    | cons name libs ih =>
      have hname : (encodeCommand (.loadDylib name)).length = 25 + name.length := by
        simp only [encodeCommand, encodeLoadDylib, List.length_append, length_leBytes,
          List.length_singleton]
        omega
      rw [List.map_cons, List.flatMap_cons, List.length_append, ih, hname, List.length_cons,
        List.flatten_cons, List.length_append]
      omega
  rw [cmds, tableCommands, List.flatMap_append, List.length_append, hsegs, List.flatMap_cons,
    List.flatMap_cons, List.flatMap_cons, List.length_append, List.length_append, List.length_append,
    hlibs, commandsSize]
  simp only [encodeCommand, encodeChainedFixups, encodeDyldInfo, encodeSymtab, List.length_append,
    length_leBytes]
  omega

theorem Fits.file_eq (h : p.Fits top) : ∃ hcount,
    p.file = (linkExecutable (p.cmds.attachWith Command.Fits h.fits_cmds) hcount p.pieces.flatten).file := by
  have hcount : (p.cmds.attachWith Command.Fits h.fits_cmds).length < 2 ^ 32 := by
    have hsize := h.size
    rw [commandsSize] at hsize
    rw [List.length_attachWith]
    simp only [Program.cmds, tableCommands, segmentCommands, List.length_append, List.length_map,
      List.length_mapIdx, List.length_cons]
    omega
  refine ⟨hcount, ?_⟩
  have hbytes : ((p.cmds.attachWith Command.Fits h.fits_cmds).map FittingCommand.toBytes).flatMap
      CommandBytes.bytes = p.cmds.flatMap encodeCommand := by
    have hval : (p.cmds.attachWith Command.Fits h.fits_cmds).map Subtype.val = p.cmds := by simp
    conv_rhs => rw [← hval]
    rw [List.flatMap_map, List.flatMap_map]
    rfl
  have hfile : (linkExecutable (p.cmds.attachWith Command.Fits h.fits_cmds) hcount p.pieces.flatten).file =
      encodeHeader (p.cmds.attachWith Command.Fits h.fits_cmds).length ++
        (((p.cmds.attachWith Command.Fits h.fits_cmds).map FittingCommand.toBytes).flatMap
          CommandBytes.bytes ++ p.pieces.flatten) := rfl
  rw [hfile, hbytes, List.length_attachWith, file]

theorem Fits.commands_file (h : p.Fits top) : commands p.file = p.cmds := by
  obtain ⟨hcount, hfile⟩ := h.file_eq
  rw [hfile, commands_linkExecutable]
  simp

theorem Fits.header_file (h : p.Fits top) : (machHeader64 p.file).magic = mhMagic64 ∧
    (machHeader64 p.file).filetype = mhExecute ∧ WellSized p.file := by
  obtain ⟨hcount, hfile⟩ := h.file_eq
  rw [hfile, machHeader64_linkExecutable]
  exact ⟨rfl, rfl, Executable.wellSized_file _⟩

theorem Fits.hasAt_piece (h : p.Fits top) {i : ℕ} (hi : i < p.pieces.length) :
    HasAt p.file (p.pieceOff i) p.pieces[i] ∧ p.pieceOff i + p.pieces[i].length ≤ p.file.length := by
  have hheader : (encodeHeader p.cmds.length).length = machHeader64Size := by
    simp [encodeHeader, machHeader64Size]
  have hpieces := (hasAt_self p.file).right.right
  rw [hheader, h.length_cmds, Nat.zero_add] at hpieces
  refine ⟨hpieces.blob hi, (pieceOff_add_le hi).trans ?_⟩
  rw [file, List.length_append, List.length_append, hheader, h.length_cmds, Nat.add_assoc]

theorem Fits.segmentsOf_file (h : p.Fits top) :
    segmentsOf (commands p.file) = p.segmentCommands ∧ segmentsOf p.tableCommands = [] := by
  have htables : segmentsOf p.tableCommands = [] := by
    simp [segmentsOf, tableCommands, List.filterMap_map]
  have hmap : segmentsOf (p.segmentCommands.map .segment64) = p.segmentCommands := by
    simp [segmentsOf, List.filterMap_map]
  refine ⟨?_, htables⟩
  rw [h.commands_file, cmds, segmentsOf, List.filterMap_append, ← segmentsOf, ← segmentsOf, hmap, htables,
    List.append_nil]

theorem Fits.nlist64_file (h : p.Fits top) :
    nlist64 p.file (p.pieceOff 3) = ⟨0, BitVec.ofNat 64 (p.base + p.entry)⟩ := by
  have hpieces : 5 ≤ p.pieces.length := Nat.le_add_left 5 _
  have hnlist : HasAt p.file (p.pieceOff 3) (leBytes 4 0 ++ (leBytes 4 0 ++ leBytes 8 (p.base + p.entry))) := by
    have hpiece := (h.hasAt_piece (i := 3) (by omega)).1
    rw [← List.append_assoc]
    exact hpiece
  obtain ⟨hstrx, hrest⟩ := hnlist.number
  obtain ⟨-, hrest⟩ := hrest.number
  obtain ⟨hvalue, -⟩ := HasAt.number (List.append_nil (leBytes 8 (p.base + p.entry)) ▸ hrest)
  rw [nlist64, toNat_u32_of_number hstrx (by norm_num), u64_of_number hvalue]

theorem Fits.fileEntry_file (h : p.Fits top) (B : Addr) :
    fileEntry p.file p.base B = some (B + BitVec.ofNat 64 p.entry) := by
  have hpieces : 5 ≤ p.pieces.length := Nat.le_add_left 5 _
  have hsyms : symtabsOf (commands p.file) = [p.symtab] := by
    rw [h.commands_file]
    simp [symtabsOf, Program.cmds, tableCommands, List.filterMap_map]
  have hname : cstrAt p.file (p.pieceOff 4) = mainSymbol :=
    cstr_of_hasAt (by decide) (h.hasAt_piece (i := 4) (by omega)).1
  have hentries : mainSymbols p.file p.symtab = [⟨0, BitVec.ofNat 64 (p.base + p.entry)⟩] := by
    simp only [mainSymbols, symtabEntries, symtab, List.range_one, List.map_singleton, Nat.mul_zero,
      Nat.add_zero, h.nlist64_file, hname, List.filter_cons, decide_true, if_true, List.filter_nil]
  rw [fileEntry, hsyms, List.flatMap_singleton, hentries, List.getLast?_singleton, Option.map_some,
    BitVec.ofNat_add, BitVec.add_comm (BitVec.ofNat 64 p.base), BitVec.add_sub_cancel]

end Program

end Maloader
