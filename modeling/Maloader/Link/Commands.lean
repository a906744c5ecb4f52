import Maloader.Lib.Records
import Maloader.Encode
import Maloader.Loader.Executable

/-!
# Writing load commands

Every list of load commands whose fields fit is the list of commands of some file, and loading that file
is acting on the commands of the list.

* `u16_of_number`, `u32_of_number`, `u64_of_number`: fields of a record.
* `Command.Fits`, `FittingCommand`: commands whose fields fit; `encodeCommand`.
* `FittingCommand.toBytes`, `command_toBytes`: their bytes, read back.
* `linkExecutable`, **`loader64_linkExecutable`**: a file with given commands.
-/

namespace Maloader

open ByteLib

/-! ## Fields -/

section Fields

variable {f : File} {p v : ℕ}

theorem u16_of_number (h : leNat (bytesAt f p 2) = v % 256 ^ 2) : u16 f p = BitVec.ofNat 16 v := by
  rw [u16, h]
  exact BitVec.eq_of_toNat_eq (by simp)

theorem u32_of_number (h : leNat (bytesAt f p 4) = v % 256 ^ 4) : u32 f p = BitVec.ofNat 32 v := by
  rw [u32, h]
  exact BitVec.eq_of_toNat_eq (by simp)

theorem u64_of_number (h : leNat (bytesAt f p 8) = v % 256 ^ 8) : u64 f p = BitVec.ofNat 64 v := by
  rw [u64, h]
  exact BitVec.eq_of_toNat_eq (by simp)

theorem toNat_u32_of_number (h : leNat (bytesAt f p 4) = v % 256 ^ 4) (hv : v < 2 ^ 32) :
    (u32 f p).toNat = v := by
  rw [u32_of_number h, BitVec.toNat_ofNat, Nat.mod_eq_of_lt hv]

end Fields

/-! ## Commands -/

/-- The fields of a command fit into its structure. -/
def Command.Fits : Command → Prop
  | .segment64 seg => seg.segname.length = 16 ∧ seg.nsects.toNat < 2 ^ 31 ∧
      seg.cmdsize.toNat = 0x48 + section64Size * seg.nsects.toNat
  | .dyldInfo info => info.bindOff < 2 ^ 32 ∧ info.bindSize < 2 ^ 32 ∧ info.lazyBindOff < 2 ^ 32 ∧
      info.lazyBindSize < 2 ^ 32
  | .symtab table => table.symoff < 2 ^ 32 ∧ table.nsyms < 2 ^ 32 ∧ table.stroff < 2 ^ 32
  | .loadDylib name => 0#8 ∉ name ∧ 24 + name.length + 1 < 2 ^ 32
  | .dyldChainedFixups fixups => fixups.dataoff < 2 ^ 32 ∧ fixups.datasize < 2 ^ 32
  | .other => True

instance Command.instDecidableFits : (cmd : Command) → Decidable cmd.Fits
  | .segment64 seg => inferInstanceAs (Decidable (seg.segname.length = 16 ∧ seg.nsects.toNat < 2 ^ 31 ∧
      seg.cmdsize.toNat = 0x48 + section64Size * seg.nsects.toNat))
  | .dyldInfo info => inferInstanceAs (Decidable (info.bindOff < 2 ^ 32 ∧ info.bindSize < 2 ^ 32 ∧
      info.lazyBindOff < 2 ^ 32 ∧ info.lazyBindSize < 2 ^ 32))
  | .symtab table => inferInstanceAs
      (Decidable (table.symoff < 2 ^ 32 ∧ table.nsyms < 2 ^ 32 ∧ table.stroff < 2 ^ 32))
  | .loadDylib name => inferInstanceAs (Decidable (0#8 ∉ name ∧ 24 + name.length + 1 < 2 ^ 32))
  | .dyldChainedFixups fixups =>
    inferInstanceAs (Decidable (fixups.dataoff < 2 ^ 32 ∧ fixups.datasize < 2 ^ 32))
  | .other => inferInstanceAs (Decidable True)

/-- A command whose fields fit. -/
abbrev FittingCommand := { cmd : Command // cmd.Fits }

/-- The bytes of a command; any other command is written as `LC_LOAD_DYLINKER`. -/
def encodeCommand : Command → File
  | .segment64 seg => encodeSegment64Sized seg.cmdsize.toNat seg.nsects.toNat seg.segname
      seg.vmaddr.toNat seg.vmsize.toNat seg.fileoff.toNat seg.filesize.toNat
  | .dyldInfo info => encodeDyldInfo info.bindOff info.bindSize info.lazyBindOff info.lazyBindSize
  | .symtab symtab => encodeSymtab symtab.symoff symtab.nsyms symtab.stroff
  | .loadDylib name => encodeLoadDylib name
  | .dyldChainedFixups fixups => encodeChainedFixups fixups.dataoff fixups.datasize
  | .other => leBytes 4 lcLoadDylinker.toNat ++ leBytes 4 8

theorem hasAt_self (bs : List Byte) : HasAt bs 0 bs := List.prefix_rfl

theorem loadCommandAt_encode (cmd cmdsize : ℕ) {bs t : List Byte}
    (h : bs = leBytes 4 cmd ++ (leBytes 4 cmdsize ++ t)) :
    loadCommandAt bs 0 = ⟨BitVec.ofNat 32 cmd, BitVec.ofNat 32 cmdsize⟩ ∧ HasAt bs 8 t := by
  have hat : HasAt bs 0 (leBytes 4 cmd ++ (leBytes 4 cmdsize ++ t)) := h ▸ hasAt_self bs
  obtain ⟨hcmd, hat⟩ := hat.number
  obtain ⟨hsize, hat⟩ := hat.number
  exact ⟨by rw [loadCommandAt, u32_of_number hcmd, u32_of_number hsize], hat⟩

theorem segmentCommand64_encode {seg : SegmentCommand64} (h : (Command.segment64 seg).Fits) :
    let bs := encodeCommand (.segment64 seg)
    loadCommandAt bs 0 = ⟨lcSegment64, seg.cmdsize⟩ ∧ segmentCommand64 bs 0 = seg ∧
      bs.length = seg.cmdsize.toNat := by
  intro bs
  obtain ⟨hname, hsects, hsize⟩ := h
  have hbs : bs = leBytes 4 lcSegment64.toNat ++ (leBytes 4 seg.cmdsize.toNat ++ (seg.segname ++
      (leBytes 8 seg.vmaddr.toNat ++ (leBytes 8 seg.vmsize.toNat ++ (leBytes 8 seg.fileoff.toNat ++
        (leBytes 8 seg.filesize.toNat ++ (leBytes 8 0 ++ (leBytes 4 seg.nsects.toNat ++
          (leBytes 4 0 ++ List.replicate (seg.cmdsize.toNat - 72) 0#8))))))))) := by
    simp only [bs, encodeCommand, encodeSegment64Sized, List.append_assoc, hname, Nat.sub_self,
      List.replicate_zero, List.nil_append]
  clear_value bs
  obtain ⟨hcommand, hat⟩ := loadCommandAt_encode _ _ hbs
  have hsegname := hat.left.take
  have hat := hat.right
  rw [hname] at hsegname hat
  obtain ⟨hvmaddr, hat⟩ := hat.number
  obtain ⟨hvmsize, hat⟩ := hat.number
  obtain ⟨hfileoff, hat⟩ := hat.number
  obtain ⟨hfilesize, hat⟩ := hat.number
  obtain ⟨-, hat⟩ := hat.number
  obtain ⟨hnsects, -⟩ := hat.number
  have hword : ∀ {w : ℕ} (v : BitVec w), BitVec.ofNat w v.toNat = v := fun v => by simp
  have hcmdsize : u32 bs (0 + 4) = seg.cmdsize :=
    (congrArg LoadCommand.cmdsize hcommand).trans (hword seg.cmdsize)
  refine ⟨by rw [hcommand, hword lcSegment64, hword seg.cmdsize], ?_, ?_⟩
  · rw [segmentCommand64, hcmdsize, hsegname, u64_of_number hvmaddr, u64_of_number hvmsize,
      u64_of_number hfileoff, u64_of_number hfilesize, u32_of_number hnsects]
    simp only [hword]
  · rw [hbs]
    simp only [List.length_append, length_leBytes, List.length_replicate, hname]
    omega

theorem dyldInfoCommand_encode {info : DyldInfoCommand} (h : (Command.dyldInfo info).Fits) :
    let bs := encodeCommand (.dyldInfo info)
    loadCommandAt bs 0 = ⟨lcDyldInfoOnly, 48#32⟩ ∧ dyldInfoCommand bs 0 = info ∧ bs.length = 48 := by
  intro bs
  obtain ⟨hbind, hbindSize, hlazy, hlazySize⟩ := h
  have hbs : bs = leBytes 4 lcDyldInfoOnly.toNat ++ (leBytes 4 48 ++ (leBytes 8 0 ++
      (leBytes 4 info.bindOff ++ (leBytes 4 info.bindSize ++ (leBytes 8 0 ++
        (leBytes 4 info.lazyBindOff ++ (leBytes 4 info.lazyBindSize ++ leBytes 8 0))))))) := by
    simp only [bs, encodeCommand, encodeDyldInfo, List.append_assoc]
  clear_value bs
  obtain ⟨hcommand, hat⟩ := loadCommandAt_encode _ _ hbs
  obtain ⟨-, hat⟩ := hat.number
  obtain ⟨hoff, hat⟩ := hat.number
  obtain ⟨hsize, hat⟩ := hat.number
  obtain ⟨-, hat⟩ := hat.number
  obtain ⟨hoff', hat⟩ := hat.number
  obtain ⟨hsize', -⟩ := hat.number
  refine ⟨hcommand, ?_, by rw [hbs]; simp only [List.length_append, length_leBytes]⟩
  rw [dyldInfoCommand, toNat_u32_of_number hoff hbind, toNat_u32_of_number hsize hbindSize,
    toNat_u32_of_number hoff' hlazy, toNat_u32_of_number hsize' hlazySize]

theorem symtabCommand_encode {symtab : SymtabCommand} (h : (Command.symtab symtab).Fits) :
    let bs := encodeCommand (.symtab symtab)
    loadCommandAt bs 0 = ⟨lcSymtab, 24#32⟩ ∧ symtabCommand bs 0 = symtab ∧ bs.length = 24 := by
  intro bs
  obtain ⟨hsymoff, hnsyms, hstroff⟩ := h
  have hbs : bs = leBytes 4 lcSymtab.toNat ++ (leBytes 4 24 ++ (leBytes 4 symtab.symoff ++
      (leBytes 4 symtab.nsyms ++ (leBytes 4 symtab.stroff ++ leBytes 4 0)))) := by
    simp only [bs, encodeCommand, encodeSymtab, List.append_assoc]
  clear_value bs
  obtain ⟨hcommand, hat⟩ := loadCommandAt_encode _ _ hbs
  obtain ⟨hoff, hat⟩ := hat.number
  obtain ⟨hcount, hat⟩ := hat.number
  obtain ⟨hstr, -⟩ := hat.number
  refine ⟨hcommand, ?_, by rw [hbs]; simp only [List.length_append, length_leBytes]⟩
  rw [symtabCommand, toNat_u32_of_number hoff hsymoff, toNat_u32_of_number hcount hnsyms,
    toNat_u32_of_number hstr hstroff]

theorem linkeditDataCommand_encode {fixups : LinkeditDataCommand}
    (h : (Command.dyldChainedFixups fixups).Fits) :
    let bs := encodeCommand (.dyldChainedFixups fixups)
    loadCommandAt bs 0 = ⟨lcDyldChainedFixups, 16#32⟩ ∧ linkeditDataCommand bs 0 = fixups ∧
      bs.length = 16 := by
  intro bs
  obtain ⟨hdataoff, hdatasize⟩ := h
  have hbs : bs = leBytes 4 lcDyldChainedFixups.toNat ++ (leBytes 4 16 ++
      (leBytes 4 fixups.dataoff ++ leBytes 4 fixups.datasize)) := by
    simp only [bs, encodeCommand, encodeChainedFixups, List.append_assoc]
  clear_value bs
  obtain ⟨hcommand, hat⟩ := loadCommandAt_encode _ _ hbs
  obtain ⟨hoff, hat⟩ := hat.number
  obtain ⟨hsize, -⟩ := HasAt.number (List.append_nil (leBytes 4 fixups.datasize) ▸ hat)
  refine ⟨hcommand, ?_, by rw [hbs]; simp only [List.length_append, length_leBytes]⟩
  rw [linkeditDataCommand, toNat_u32_of_number hoff hdataoff, toNat_u32_of_number hsize hdatasize]

theorem dylibName_encode {name : CString} (h : (Command.loadDylib name).Fits) :
    let bs := encodeCommand (.loadDylib name)
    loadCommandAt bs 0 = ⟨lcLoadDylib, BitVec.ofNat 32 (24 + name.length + 1)⟩ ∧
      u32 bs (0 + 8) = 24#32 ∧ dylibName bs 0 = name ∧ bs.length = 24 + name.length + 1 ∧
      0#8 ∈ bs.drop 24 := by
  intro bs
  obtain ⟨hname, hlen⟩ := h
  have hbs : bs = leBytes 4 lcLoadDylib.toNat ++ (leBytes 4 (24 + name.length + 1) ++ (leBytes 4 24 ++
      (leBytes 12 0 ++ (name ++ [0#8])))) := by
    simp only [bs, encodeCommand, encodeLoadDylib, List.append_assoc]
  clear_value bs
  obtain ⟨hcommand, hat⟩ := loadCommandAt_encode _ _ hbs
  obtain ⟨hoff, hat⟩ := hat.number
  obtain ⟨-, hat⟩ := hat.number
  have hword : u32 bs (0 + 8) = 24#32 := u32_of_number hoff
  refine ⟨hcommand, hword, ?_, ?_, hat.subset (by simp)⟩
  · rw [dylibName, hword]
    exact cstr_of_hasAt hname hat
  · rw [hbs]
    simp only [List.length_append, length_leBytes, List.length_singleton]
    omega

/-! ## Their bytes -/

/-- What the bytes of a command are read as. -/
structure Encodes (cmd : Command) (bs : List Byte) : Prop where
  command_eq : commandAt bs 0 = cmd
  cmdsize_eq : (loadCommandAt bs 0).cmdsize.toNat = bs.length
  structSize_le : (kindOf bs).structSize ≤ bs.length
  sized : SegmentSized bs 0
  named : kindOf bs = .loadDylib → 0#8 ∈ bs.drop (u32 bs (0 + 8)).toNat

theorem encodes_of_kind {cmd : Command} {bs : List Byte} {command : LoadCommand}
    (hcommand : loadCommandAt bs 0 = command) (hcmd : commandAt bs 0 = cmd)
    (hsize : command.cmdsize.toNat = bs.length)
    (hstruct : (commandKind command.cmd).structSize ≤ bs.length)
    (hsegment : commandKind command.cmd ≠ .segment64) (hdylib : commandKind command.cmd ≠ .loadDylib) :
    Encodes cmd bs where
  command_eq := hcmd
  cmdsize_eq := by rw [hcommand, hsize]
  structSize_le := by rwa [kindOf, hcommand]
  sized h := by
    rw [hcommand] at h
    exact absurd (congrArg commandKind h) hsegment
  named h := by
    rw [kindOf, hcommand] at h
    exact absurd h hdylib

/-- **The bytes of a command** are read as the command. -/
theorem encodes_encodeCommand {cmd : Command} (h : cmd.Fits) : Encodes cmd (encodeCommand cmd) := by
  cases cmd with
  | segment64 seg =>
    obtain ⟨hcommand, hseg, hlen⟩ := segmentCommand64_encode h
    obtain ⟨-, hsects, hsize⟩ := h
    generalize encodeCommand (.segment64 seg) = bs at *
    have hkind : commandKind (loadCommandAt bs 0).cmd = .segment64 := by rw [hcommand]; rfl
    have hstruct : CommandKind.segment64.structSize = 72 := rfl
    refine ⟨?_, by rw [hcommand, hlen], ?_, fun _ => ?_, fun h => ?_⟩
    · rw [commandAt, hkind, hseg]
    · rw [kindOf, hkind, hstruct]
      omega
    · rw [hseg, hcommand]
      exact ⟨hsects, hsize⟩
    · rw [kindOf, hkind] at h
      cases h
  | dyldInfo info =>
    obtain ⟨hcommand, hinfo, hlen⟩ := dyldInfoCommand_encode h
    generalize encodeCommand (.dyldInfo info) = bs at *
    have hkind : commandKind (loadCommandAt bs 0).cmd = .dyldInfo := by rw [hcommand]; rfl
    refine encodes_of_kind hcommand ?_ (by rw [hlen]; rfl) (by rw [hlen]; decide) (by decide) (by decide)
    rw [commandAt, hkind, hinfo]
  | symtab table =>
    obtain ⟨hcommand, htable, hlen⟩ := symtabCommand_encode h
    generalize encodeCommand (.symtab table) = bs at *
    have hkind : commandKind (loadCommandAt bs 0).cmd = .symtab := by rw [hcommand]; rfl
    refine encodes_of_kind hcommand ?_ (by rw [hlen]; rfl) (by rw [hlen]; decide) (by decide) (by decide)
    rw [commandAt, hkind, htable]
  | dyldChainedFixups fixups =>
    obtain ⟨hcommand, hfixups, hlen⟩ := linkeditDataCommand_encode h
    generalize encodeCommand (.dyldChainedFixups fixups) = bs at *
    have hkind : commandKind (loadCommandAt bs 0).cmd = .dyldChainedFixups := by rw [hcommand]; rfl
    refine encodes_of_kind hcommand ?_ (by rw [hlen]; rfl) (by rw [hlen]; decide) (by decide) (by decide)
    rw [commandAt, hkind, hfixups]
  | loadDylib name =>
    obtain ⟨hcommand, hoff, hname, hlen, hnul⟩ := dylibName_encode h
    obtain ⟨-, hfits⟩ := h
    generalize encodeCommand (.loadDylib name) = bs at *
    have hlib : commandKind lcLoadDylib = .loadDylib := rfl
    have hkind : commandKind (loadCommandAt bs 0).cmd = .loadDylib := by rw [hcommand, hlib]
    have hstruct : CommandKind.loadDylib.structSize = 24 := rfl
    refine ⟨?_, ?_, ?_, fun h => ?_, fun _ => ?_⟩
    · rw [commandAt, hkind, hname]
    · rw [hcommand, hlen]
      exact Nat.mod_eq_of_lt hfits
    · rw [kindOf, hkind, hstruct]
      omega
    · have hne : lcLoadDylib ≠ lcSegment64 := by decide
      rw [hcommand] at h
      exact absurd h hne
    · rw [hoff]
      exact hnul
  | other => exact encodes_of_kind rfl rfl rfl (by decide) (by decide) (by decide)

/-- **The bytes of a command**, with what makes them one. -/
def FittingCommand.toBytes (c : FittingCommand) : CommandBytes where
  bytes := encodeCommand c.1
  cmdsize_eq := (encodes_encodeCommand c.2).cmdsize_eq
  structSize_le := (encodes_encodeCommand c.2).structSize_le
  sized := (encodes_encodeCommand c.2).sized
  named := (encodes_encodeCommand c.2).named

theorem command_toBytes (c : FittingCommand) : c.toBytes.command = c.1 :=
  (encodes_encodeCommand c.2).command_eq

/-! ## Files -/

theorem machHeader64_encodeHeader (ncmds : ℕ) :
    machHeader64 (encodeHeader ncmds) = ⟨mhMagic64, mhExecute, BitVec.ofNat 32 ncmds⟩ := by
  have hat : HasAt (encodeHeader ncmds) 0 (leBytes 4 mhMagic64.toNat ++ (leBytes 8 0 ++
      (leBytes 4 mhExecute.toNat ++ (leBytes 4 ncmds ++ leBytes 12 0)))) := by
    simp only [encodeHeader, List.append_assoc]
    exact hasAt_self _
  generalize encodeHeader ncmds = bs at hat ⊢
  obtain ⟨hmagic, hat⟩ := hat.number
  obtain ⟨-, hat⟩ := hat.number
  obtain ⟨hfiletype, hat⟩ := hat.number
  obtain ⟨hncmds, -⟩ := hat.number
  rw [machHeader64, u32_of_number hmagic, u32_of_number hfiletype, u32_of_number hncmds]
  rfl

/-- A file with the given commands, and `rest` behind them. -/
def linkExecutable (cmds : List FittingCommand) (hcount : cmds.length < 2 ^ 32) (rest : File) :
    Executable where
  header := encodeHeader cmds.length
  cmds := cmds.map FittingCommand.toBytes
  rest := rest
  length_header := by simp [encodeHeader, machHeader64Size]
  ncmds_eq := by
    rw [machHeader64_encodeHeader, List.length_map]
    exact Nat.mod_eq_of_lt hcount

section LinkExecutable

variable (cmds : List FittingCommand) (hcount : cmds.length < 2 ^ 32) (rest : File)

theorem commands_linkExecutable :
    commands (linkExecutable cmds hcount rest).file = cmds.map Subtype.val := by
  rw [(linkExecutable cmds hcount rest).commands_file, linkExecutable, List.map_map]
  exact List.map_congr_left fun c _ => command_toBytes c

theorem machHeader64_linkExecutable : machHeader64 (linkExecutable cmds hcount rest).file =
    ⟨mhMagic64, mhExecute, BitVec.ofNat 32 cmds.length⟩ := by
  rw [(linkExecutable cmds hcount rest).machHeader64_file, linkExecutable, machHeader64_encodeHeader]

/-- **Any commands whose fields fit** are the commands of a file, and loading the file is acting on
them, one after the other. -/
theorem loader64_linkExecutable (E : Env) (cmds : List FittingCommand) (hcount : cmds.length < 2 ^ 32)
    (rest : File) (c : MachContext) :
    let f := (linkExecutable cmds hcount rest).file
    commands f = cmds.map Subtype.val ∧ f.drop (linkExecutable cmds hcount rest).commandsEnd = rest ∧
      ∃ p, loader64 E f c = (0, (cmds.foldl (fun c cmd => execCommand E f c cmd.1) c).atPtr p) := by
  intro f
  have hexec : (machHeader64 f).filetype = mhExecute :=
    congrArg MachHeader64.filetype (machHeader64_linkExecutable cmds hcount rest)
  have hload := loader64_eq E f hexec (linkExecutable cmds hcount rest).wellSized_file c
  rw [commands_linkExecutable, List.foldl_map] at hload
  exact ⟨commands_linkExecutable cmds hcount rest, (linkExecutable cmds hcount rest).drop_file, _, hload⟩

end LinkExecutable

/-- Two segments, a library, a command that is passed over, a symbol table and another library. -/
def sixCommands : List FittingCommand :=
  [⟨.segment64 ⟨72, lit "__TEXT" ++ List.replicate 10 0#8, 0x4000#64, 0x1000#64, 0#64, 4#64, 0#32⟩,
      by decide⟩,
    ⟨.segment64 ⟨72, lit "__DATA" ++ List.replicate 10 0#8, 0x5000#64, 0x1000#64, 0#64, 0#64, 0#32⟩,
      by decide⟩,
    ⟨.loadDylib (lit "libz"), by decide⟩, ⟨.other, trivial⟩, ⟨.symtab ⟨266, 1, 282⟩, by decide⟩,
    ⟨.loadDylib (lit "libm"), by decide⟩]

/-- Loaded at `0x7000` with a symbol behind the commands: `_main` is at `0x7010`. -/
theorem loader64_linkExecutable_sixCommands :
    let E := { Env.plain with mmap := fun _ _ _ => some 0x7000#64 }
    let rest := encodeNlist64 0 0x4010 ++ lit "_main" ++ [0#8]
    let f := (linkExecutable sixCommands (by decide) rest).file
    commands f = sixCommands.map Subtype.val ∧
      ∃ c, loader64 E f (MachContext.zero fun _ => 0#8) = (0, c) ∧
        c.segments.recs.map SegmentInfo.mappedAddr = [0x7000#64, 0x8000#64] ∧
        c.dList = [lit "libz", lit "libm"] ∧ c.entryPoint = some 0x7010#64 ∧ c.mem 0x7000#64 = 0xcf#8 := by
  intro E rest f
  obtain ⟨hcmds, -, p, hload⟩ := loader64_linkExecutable E sixCommands (by decide) rest
    (MachContext.zero fun _ => 0#8)
  obtain ⟨c, hc⟩ : ∃ c, sixCommands.foldl (fun c cmd => execCommand E f c cmd.1)
      (MachContext.zero fun _ => 0#8) = c := ⟨_, rfl⟩
  have hfold : c.segments.recs.map SegmentInfo.mappedAddr = [0x7000#64, 0x8000#64] ∧
      c.dList = [lit "libz", lit "libm"] ∧ c.entryPoint = some 0x7010#64 ∧ c.mem 0x7000#64 = 0xcf#8 := by
    rw [← hc]
    decide +kernel
  exact ⟨hcmds, c.atPtr p, hc ▸ hload, hfold⟩

end Maloader
