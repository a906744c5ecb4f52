import Maloader.Loader.Commands

/-!
# Executables taken apart

A header, load commands one behind the other, and the bytes behind them. A load command is given by
its bytes; it carries that they are as many as its `cmdsize` says and enough for what is read there.

* `CommandBytes`, `commandAt_of_hasAt`: a command reads the same wherever its bytes stand.
* `Executable`, `Executable.file`; `commands_file`, `wellSized_file`: the walk over the file finds
  the commands.
* `CommandFits`, `commandFits_file`, **`exists_executable`**: the files whose commands fit are the
  executables.
* `Executable.Reordered`, `drop_commandsEnd`: two executables that differ in the order of their
  commands agree behind them.
* `TableBehind`, `TablesBehind`: what the commands point at lies behind the commands.
-/

namespace Maloader

open ByteLib

/-! ## The bytes of a command -/

/-- `sizeof` of the structures whose fields are read; the first two fields of the other ones. -/
def CommandKind.structSize : CommandKind → ℕ
  | .segment64 => 72
  | .dyldInfo => 48
  | .symtab => 24
  | .loadDylib => 24
  | .dyldChainedFixups => 16
  | .dysymtab | .loadDylinker | .dyldExportsTrie | .other => 8

/-- The branch taken on the command at the head of `bs`. -/
def kindOf (bs : List Byte) : CommandKind := commandKind (loadCommandAt bs 0).cmd

/-- The bytes of a load command. The name of a library ends inside its command. -/
structure CommandBytes where
  bytes : List Byte
  cmdsize_eq : (loadCommandAt bytes 0).cmdsize.toNat = bytes.length
  structSize_le : (kindOf bytes).structSize ≤ bytes.length
  sized : SegmentSized bytes 0
  named : kindOf bytes = .loadDylib → 0#8 ∈ bytes.drop (u32 bytes (0 + 8)).toNat
  deriving DecidableEq

/-- The branch taken on a command. -/
def CommandBytes.kind (b : CommandBytes) : CommandKind := kindOf b.bytes

/-- The command that the bytes spell. -/
def CommandBytes.command (b : CommandBytes) : Command := commandAt b.bytes 0

section Reads

variable {f : File} {p : ℕ} {bs : List Byte}

theorem u32_of_hasAt (h : HasAt f p bs) {k : ℕ} (hk : k + 4 ≤ bs.length) :
    u32 f (p + k) = u32 bs (0 + k) := by
  rw [u32, bytesAt_of_hasAt h hk, u32]

theorem u64_of_hasAt (h : HasAt f p bs) {k : ℕ} (hk : k + 8 ≤ bs.length) :
    u64 f (p + k) = u64 bs (0 + k) := by
  rw [u64, bytesAt_of_hasAt h hk, u64]

theorem loadCommandAt_of_hasAt (h : HasAt f p bs) (hk : 8 ≤ bs.length) :
    loadCommandAt f p = loadCommandAt bs 0 := by
  have hword : u32 f p = u32 bs 0 := u32_of_hasAt (k := 0) h (by omega)
  rw [loadCommandAt, hword, u32_of_hasAt h (by omega), loadCommandAt]

theorem segmentCommand64_of_hasAt (h : HasAt f p bs) (hk : 72 ≤ bs.length) :
    segmentCommand64 f p = segmentCommand64 bs 0 := by
  unfold segmentCommand64
  rw [u32_of_hasAt h (k := 4) (by omega), bytesAt_of_hasAt h (k := 8) (by omega),
    u64_of_hasAt h (k := 24) (by omega), u64_of_hasAt h (k := 32) (by omega),
    u64_of_hasAt h (k := 40) (by omega), u64_of_hasAt h (k := 48) (by omega),
    u32_of_hasAt h (k := 64) (by omega)]

theorem dyldInfoCommand_of_hasAt (h : HasAt f p bs) (hk : 48 ≤ bs.length) :
    dyldInfoCommand f p = dyldInfoCommand bs 0 := by
  unfold dyldInfoCommand
  rw [u32_of_hasAt h (k := 16) (by omega), u32_of_hasAt h (k := 20) (by omega),
    u32_of_hasAt h (k := 32) (by omega), u32_of_hasAt h (k := 36) (by omega)]

theorem symtabCommand_of_hasAt (h : HasAt f p bs) (hk : 24 ≤ bs.length) :
    symtabCommand f p = symtabCommand bs 0 := by
  unfold symtabCommand
  rw [u32_of_hasAt h (k := 8) (by omega), u32_of_hasAt h (k := 12) (by omega),
    u32_of_hasAt h (k := 16) (by omega)]

theorem dylibName_of_hasAt (h : HasAt f p bs) (hk : 24 ≤ bs.length)
    (hname : 0#8 ∈ bs.drop (u32 bs (0 + 8)).toNat) : dylibName f p = dylibName bs 0 := by
  unfold dylibName cstrAt
  rw [u32_of_hasAt h (k := 8) (by omega), cstr_drop_of_hasAt h hname]
  simp only [Nat.zero_add]

theorem linkeditDataCommand_of_hasAt (h : HasAt f p bs) (hk : 16 ≤ bs.length) :
    linkeditDataCommand f p = linkeditDataCommand bs 0 := by
  unfold linkeditDataCommand
  rw [u32_of_hasAt h (k := 8) (by omega), u32_of_hasAt h (k := 12) (by omega)]

end Reads

theorem CommandBytes.length_le (b : CommandBytes) : 8 ≤ b.bytes.length := by
  refine le_trans ?_ b.structSize_le
  cases kindOf b.bytes <;> decide

theorem commandAt_of_hasAt {f : File} {p : ℕ} (b : CommandBytes) (h : HasAt f p b.bytes) :
    commandAt f p = b.command := by
  have hsize := b.structSize_le
  have hname := b.named
  unfold CommandBytes.command commandAt
  unfold kindOf at hsize hname
  rw [loadCommandAt_of_hasAt h b.length_le]
  cases hk : commandKind (loadCommandAt b.bytes 0).cmd with
  | segment64 =>
    rw [hk] at hsize
    exact congrArg Command.segment64 (segmentCommand64_of_hasAt h hsize)
  | dyldInfo =>
    rw [hk] at hsize
    exact congrArg Command.dyldInfo (dyldInfoCommand_of_hasAt h hsize)
  | symtab =>
    rw [hk] at hsize
    exact congrArg Command.symtab (symtabCommand_of_hasAt h hsize)
  | loadDylib =>
    rw [hk] at hsize
    exact congrArg Command.loadDylib (dylibName_of_hasAt h hsize (hname hk))
  | dyldChainedFixups =>
    rw [hk] at hsize
    exact congrArg Command.dyldChainedFixups (linkeditDataCommand_of_hasAt h hsize)
  | _ => rfl

theorem segmentSized_of_hasAt {f : File} {p : ℕ} (b : CommandBytes) (h : HasAt f p b.bytes) :
    SegmentSized f p := by
  have hsized := b.sized
  have hsize := b.structSize_le
  unfold SegmentSized at hsized ⊢
  rw [loadCommandAt_of_hasAt h b.length_le]
  intro hcmd
  have hkind : kindOf b.bytes = .segment64 := by
    rw [kindOf, hcmd]
    rfl
  rw [hkind] at hsize
  rw [segmentCommand64_of_hasAt h hsize]
  exact hsized hcmd

/-! ## Executables -/

/-- A header, its load commands, and what is behind them. -/
structure Executable where
  header : List Byte
  cmds : List CommandBytes
  rest : List Byte
  length_header : header.length = machHeader64Size
  ncmds_eq : (machHeader64 header).ncmds.toNat = cmds.length

namespace Executable

/-- The file that the parts make. -/
def file (x : Executable) : File := x.header ++ (x.cmds.flatMap CommandBytes.bytes ++ x.rest)

/-- The offset behind the load commands. -/
def commandsEnd (x : Executable) : ℕ :=
  machHeader64Size + (x.cmds.flatMap CommandBytes.bytes).length

variable (x : Executable)

theorem hasAt_header : HasAt x.file 0 x.header := List.prefix_append _ _

theorem hasAt_cmds : HasAt x.file machHeader64Size (x.cmds.flatMap CommandBytes.bytes) := by
  rw [HasAt, file, ← x.length_header, List.drop_left]
  exact List.prefix_append _ _

theorem drop_file : x.file.drop x.commandsEnd = x.rest := by
  rw [commandsEnd, ← List.drop_drop, file, ← x.length_header, List.drop_left, List.drop_left]

theorem machHeader64_file : machHeader64 x.file = machHeader64 x.header := by
  have hlength := x.length_header
  have hword : ∀ k, k + 4 ≤ 32 → u32 x.file k = u32 x.header k := fun k hk => by
    have h := u32_of_hasAt x.hasAt_header (k := k) (by rw [hlength]; exact hk)
    rwa [Nat.zero_add] at h
  unfold machHeader64
  rw [hword 0 (by omega), hword 12 (by omega), hword 16 (by omega)]

theorem cmdWalk_of_hasAt {f : File} {bs : List CommandBytes} {p : ℕ}
    (h : HasAt f p (bs.flatMap CommandBytes.bytes)) :
    (cmdWalk f bs.length p).map (commandAt f) = bs.map CommandBytes.command ∧
      ∀ q ∈ cmdWalk f bs.length p, SegmentSized f q := by
  induction bs generalizing p with
  | nil => exact ⟨rfl, fun q hq => absurd hq List.not_mem_nil⟩
  | cons b bs ih =>
    rw [List.flatMap_cons] at h
    have hnext := h.right
    rw [← b.cmdsize_eq, ← loadCommandAt_of_hasAt h.left b.length_le] at hnext
    obtain ⟨hmap, hsized⟩ := ih hnext
    rw [List.length_cons, cmdWalk, List.map_cons, List.map_cons, hmap, commandAt_of_hasAt b h.left]
    refine ⟨rfl, List.forall_mem_cons.mpr ⟨segmentSized_of_hasAt b h.left, hsized⟩⟩

theorem commands_file : commands x.file = x.cmds.map CommandBytes.command := by
  rw [commands, cmdOffsets, machHeader64_file, x.ncmds_eq]
  exact (cmdWalk_of_hasAt x.hasAt_cmds).1

theorem wellSized_file : WellSized x.file := by
  rw [WellSized, cmdOffsets, machHeader64_file, x.ncmds_eq]
  exact (cmdWalk_of_hasAt x.hasAt_cmds).2

/-! ## Every file whose commands fit -/

/-- The command at `p` lies in the file, with what is read of it. -/
structure CommandFits (f : File) (p : ℕ) : Prop where
  inside : p + (loadCommandAt f p).cmdsize.toNat ≤ f.length
  structSize_le : (commandKind (loadCommandAt f p).cmd).structSize ≤ (loadCommandAt f p).cmdsize.toNat
  sized : SegmentSized f p
  named : commandKind (loadCommandAt f p).cmd = .loadDylib →
    0#8 ∈ ((f.drop p).take (loadCommandAt f p).cmdsize.toNat).drop (u32 f (p + 8)).toNat

instance instDecidableCommandFits (f : File) (p : ℕ) : Decidable (CommandFits f p) :=
  decidable_of_iff (p + (loadCommandAt f p).cmdsize.toNat ≤ f.length ∧
      (commandKind (loadCommandAt f p).cmd).structSize ≤ (loadCommandAt f p).cmdsize.toNat ∧
      SegmentSized f p ∧ (commandKind (loadCommandAt f p).cmd = .loadDylib →
        0#8 ∈ ((f.drop p).take (loadCommandAt f p).cmdsize.toNat).drop (u32 f (p + 8)).toNat))
    ⟨fun ⟨h1, h2, h3, h4⟩ => ⟨h1, h2, h3, h4⟩, fun h => ⟨h.1, h.2, h.3, h.4⟩⟩

theorem commandFits_of_hasAt {f : File} {p : ℕ} (b : CommandBytes) (h : HasAt f p b.bytes) :
    CommandFits f p := by
  have hcommand := loadCommandAt_of_hasAt h b.length_le
  have hlength := b.length_le
  have htake : (f.drop p).take b.bytes.length = b.bytes := (List.prefix_iff_eq_take.mp h).symm
  refine ⟨?_, ?_, segmentSized_of_hasAt b h, fun hkind => ?_⟩
  · have hle : b.bytes.length ≤ (f.drop p).length := h.length_le
    rw [List.length_drop] at hle
    rw [hcommand, b.cmdsize_eq]
    omega
  · rw [hcommand, b.cmdsize_eq]
    exact b.structSize_le
  · rw [hcommand] at hkind
    have hsize : 24 ≤ b.bytes.length := by
      have hle := b.structSize_le
      rwa [kindOf, hkind] at hle
    rw [hcommand, b.cmdsize_eq, htake, u32_of_hasAt h (by omega)]
    exact b.named hkind

theorem forall_cmdWalk_of_hasAt {f : File} {bs : List CommandBytes} {p : ℕ}
    (h : HasAt f p (bs.flatMap CommandBytes.bytes)) :
    ∀ q ∈ cmdWalk f bs.length p, CommandFits f q := by
  induction bs generalizing p with
  | nil => exact fun q hq => absurd hq List.not_mem_nil
  | cons b bs ih =>
    rw [List.flatMap_cons] at h
    have hnext := h.right
    rw [← b.cmdsize_eq, ← loadCommandAt_of_hasAt h.left b.length_le] at hnext
    exact List.forall_mem_cons.mpr ⟨commandFits_of_hasAt b h.left, ih hnext⟩

theorem commandFits_file : ∀ p ∈ cmdOffsets x.file, CommandFits x.file p := by
  rw [cmdOffsets, machHeader64_file, x.ncmds_eq]
  exact forall_cmdWalk_of_hasAt x.hasAt_cmds

theorem exists_commandBytes {f : File} {p : ℕ} (h : CommandFits f p) :
    ∃ b : CommandBytes, b.bytes = (f.drop p).take (loadCommandAt f p).cmdsize.toNat := by
  obtain ⟨hinside, hsize, hsized, hnamed⟩ := h
  have hat : HasAt f p ((f.drop p).take (loadCommandAt f p).cmdsize.toNat) := List.take_prefix _ _
  have hlength : ((f.drop p).take (loadCommandAt f p).cmdsize.toNat).length =
      (loadCommandAt f p).cmdsize.toNat := by
    rw [List.length_take, List.length_drop]
    omega
  have height : 8 ≤ (loadCommandAt f p).cmdsize.toNat := by
    refine le_trans ?_ hsize
    cases commandKind (loadCommandAt f p).cmd <;> decide
  have hcommand := loadCommandAt_of_hasAt hat (by rwa [hlength])
  generalize (f.drop p).take (loadCommandAt f p).cmdsize.toNat = bs at *
  rw [← hlength] at hsize height
  rw [hcommand] at hlength hsize hnamed
  refine ⟨⟨bs, hlength.symm, hsize, ?_, fun hkind => ?_⟩, rfl⟩
  · unfold SegmentSized at hsized ⊢
    rw [hcommand] at hsized
    intro hcmd
    have hkind : commandKind (loadCommandAt bs 0).cmd = .segment64 := by
      rw [hcmd]
      rfl
    rw [hkind] at hsize
    rw [← segmentCommand64_of_hasAt hat hsize]
    exact hsized hcmd
  · have hword : 24 ≤ bs.length := by
      rw [kindOf] at hkind
      rwa [hkind] at hsize
    rw [← u32_of_hasAt hat (k := 8) (by omega)]
    exact hnamed hkind

theorem exists_blocks {f : File} (n p : ℕ) (h : ∀ q ∈ cmdWalk f n p, CommandFits f q) :
    ∃ bs : List CommandBytes, bs.length = n ∧
      ∃ rest, f.drop p = bs.flatMap CommandBytes.bytes ++ rest := by
  induction n generalizing p with
  | zero => exact ⟨[], rfl, f.drop p, rfl⟩
  | succ n ih =>
    rw [cmdWalk, List.forall_mem_cons] at h
    obtain ⟨b, hb⟩ := exists_commandBytes h.1
    obtain ⟨bs, hlength, rest, hrest⟩ := ih _ h.2
    refine ⟨b :: bs, by rw [List.length_cons, hlength], rest, ?_⟩
    rw [List.flatMap_cons, List.append_assoc, ← hrest, hb, ← List.drop_drop, List.take_append_drop]

/-- **Every file whose header and commands fit** is an executable taken apart. -/
theorem exists_executable {f : File} (hheader : machHeader64Size ≤ f.length)
    (h : ∀ p ∈ cmdOffsets f, CommandFits f p) : ∃ x : Executable, x.file = f := by
  obtain ⟨bs, hlength, rest, hrest⟩ := exists_blocks _ _ h
  have hword : ∀ k, k + 4 ≤ 32 → u32 (f.take machHeader64Size) k = u32 f k := fun k hk => by
    have hat : HasAt f 0 (f.take machHeader64Size) := List.take_prefix _ _
    have hle : k + 4 ≤ (f.take machHeader64Size).length := by
      rw [List.length_take, min_eq_left hheader]
      exact hk
    have hu := u32_of_hasAt hat hle
    rwa [Nat.zero_add, eq_comm] at hu
  refine ⟨⟨f.take machHeader64Size, bs, rest, ?_, ?_⟩, ?_⟩
  · rw [List.length_take, min_eq_left hheader]
  · rw [hlength, machHeader64, hword 16 (by omega), machHeader64]
  · rw [file, ← hrest, List.take_append_drop]

/-! ## Other orders -/

/-- `y` is `x` with its commands in another order. -/
structure Reordered (x y : Executable) : Prop where
  header_eq : y.header = x.header
  rest_eq : y.rest = x.rest
  perm : x.cmds.Perm y.cmds

variable {x} {y : Executable}

theorem Reordered.commandsEnd_eq (h : Reordered x y) : y.commandsEnd = x.commandsEnd := by
  rw [commandsEnd, commandsEnd, (h.perm.flatMap_right CommandBytes.bytes).length_eq]

theorem Reordered.drop_commandsEnd (h : Reordered x y) :
    x.file.drop x.commandsEnd = y.file.drop x.commandsEnd := by
  have hy := y.drop_file
  rw [h.commandsEnd_eq, h.rest_eq] at hy
  rw [drop_file, hy]

theorem Reordered.filetype_eq (h : Reordered x y) :
    (machHeader64 y.file).filetype = (machHeader64 x.file).filetype := by
  rw [machHeader64_file, machHeader64_file, h.header_eq]

end Executable

/-! ## What the commands point at -/

/-- Symbols, bind streams and payloads lie at or behind offset `stop`; empty tables anywhere. -/
def TableBehind (stop : ℕ) : Command → Prop
  | .dyldInfo info => (info.bindSize ≠ 0 → stop ≤ info.bindOff) ∧
      (info.lazyBindSize ≠ 0 → stop ≤ info.lazyBindOff)
  | .symtab symtab => symtab.nsyms ≠ 0 → stop ≤ symtab.symoff ∧ stop ≤ symtab.stroff
  | .dyldChainedFixups fixups => stop ≤ fixups.dataoff
  | _ => True

instance (stop : ℕ) (cmd : Command) : Decidable (TableBehind stop cmd) := by
  cases cmd <;> (unfold TableBehind; infer_instance)

/-- The tables lie behind the load commands. -/
def Executable.TablesBehind (x : Executable) : Prop :=
  ∀ b ∈ x.cmds, TableBehind x.commandsEnd b.command

instance (x : Executable) : Decidable x.TablesBehind := by
  unfold Executable.TablesBehind; infer_instance

end Maloader
