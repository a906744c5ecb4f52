import Maloader.Loader.Spec
import Maloader.Loader.TwoFiles

/-!
# Executables whose commands are permuted

An executable and the same one with some of its load commands moved. Both files are loaded; what the
two runs leave is compared.

* `SameResult`: what two runs leave is the same, apart from some bytes of the image.
* `movedBytes`: the bytes of the image that are copies of load commands that moved.
* **`sameResult_of_reordered`**: the commands of one file, run in either order, decide.
* `NonSegmentsPermuted`, **`loader64_permuted`**: commands behind the segments commute.
* `sampleExecutable`, `image_permuted`: the copies of the commands themselves do move.
-/

namespace Maloader

open ByteLib

/-! ## Results -/

/-- Two runs leave the same, apart from the pointer, the logs, and the bytes of `moved`. -/
structure SameResult (moved : Set Addr) (c c' : MachContext) : Prop where
  imgAddr_eq : c'.imgAddr = c.imgAddr
  vAddr_eq : c'.vAddr = c.vAddr
  entryPoint_eq : c'.entryPoint = c.entryPoint
  bList_eq : c'.bList = c.bList
  dList_eq : c'.dList = c.dList
  segments_eq : c'.segments = c.segments
  rebaseCount_eq : c'.chainedRebaseCount = c.chainedRebaseCount
  bindCount_eq : c'.chainedBindCount = c.chainedBindCount
  unresolvedBindCount_eq : c'.chainedUnresolvedBindCount = c.chainedUnresolvedBindCount
  image_eqOn : Set.EqOn c.mem c'.mem (compl moved)

theorem SameResult.rfl {moved : Set Addr} {c : MachContext} : SameResult moved c c :=
  ⟨Eq.refl _, Eq.refl _, Eq.refl _, Eq.refl _, Eq.refl _, Eq.refl _, Eq.refl _, Eq.refl _, Eq.refl _,
    fun _ _ => Eq.refl _⟩

theorem SameResult.atPtr {moved : Set Addr} {c c' : MachContext} (h : SameResult moved c c') (p q : ℕ) :
    SameResult moved (c.atPtr p) (c'.atPtr q) :=
  ⟨h.1, h.2, h.3, h.4, h.5, h.6, h.7, h.8, h.9, h.10⟩

/-- The same pointer and an empty log. -/
def MachContext.settled (c : MachContext) : MachContext := c.silent.atPtr 0

theorem SameRun.sameResult {f f' : File} {segs : List SegmentCommand64} {c c' d : MachContext}
    (h : SameRun f f' segs c c') (hd : c'.settled = d.settled) :
    SameResult (differingCopies f f' segs c.imgAddr c.vAddr) c d := by
  have hc' := h.eq_withMem
  have hon := h.eqOn
  generalize c'.mem = m at hc' hon
  subst hc'
  have hfield : ∀ {α : Type} (g : MachContext → α), g d.settled = g (c.withMem m).settled :=
    fun g => congrArg g hd.symm
  have hmem : d.mem = m := hfield MachContext.mem
  exact ⟨hfield MachContext.imgAddr, hfield MachContext.vAddr, hfield MachContext.entryPoint,
    hfield MachContext.bList, hfield MachContext.dList, hfield MachContext.segments,
    hfield MachContext.chainedRebaseCount, hfield MachContext.chainedBindCount,
    hfield MachContext.chainedUnresolvedBindCount, by rwa [hmem]⟩

/-! ## Moved commands -/

/-- Where the image has bytes of load commands that are different ones in the two files. -/
def movedBytes (x y : Executable) (c : MachContext) : Set Addr :=
  differingCopies x.file y.file (segmentsOf (commands x.file)) c.imgAddr c.vAddr

instance (x y : Executable) (c : MachContext) (a : Addr) : Decidable (a ∈ movedBytes x y c) := by
  unfold movedBytes; infer_instance

theorem movedBytes_atPtr (x y : Executable) (c : MachContext) (p : ℕ) :
    movedBytes x y (c.atPtr p) = movedBytes x y c := rfl

theorem hull_congr {f f' : File} (h : segmentsOf (commands f') = segmentsOf (commands f)) :
    hull f' = hull f := by
  rw [hull_eq_foldl, spannedSegments, imageSegments, h, hull_eq_foldl, spannedSegments, imageSegments]

/-- **The commands of one file, run in either order, decide** about two files. -/
theorem sameResult_of_reordered (E : Env) (m : Mem 64) {x y : Executable} (h : x.Reordered y)
    (hsegs : segmentsOf (commands y.file) = segmentsOf (commands x.file)) (htables : x.TablesBehind)
    (hclear : FixupsIn (compl (movedBytes x y (loader64 E x.file (MachContext.zero m)).2))
      (loader64 E x.file (MachContext.zero m)).2.trace)
    (hsame : (machHeader64 x.file).filetype = mhExecute →
      SameRun x.file y.file (segmentsOf (commands x.file))
        ((commands x.file).foldl (execCommand E x.file) (MachContext.zero m))
        ((commands x.file).foldl (execCommand E y.file) (MachContext.zero m)) →
      ((commands x.file).foldl (execCommand E y.file) (MachContext.zero m)).settled =
        ((commands y.file).foldl (execCommand E y.file) (MachContext.zero m)).settled) :
    SameResult (movedBytes x y (loader64 E x.file (MachContext.zero m)).2)
      (loader64 E x.file (MachContext.zero m)).2 (loader64 E y.file (MachContext.zero m)).2 := by
  by_cases hexec : (machHeader64 x.file).filetype = mhExecute
  · have hx := congrArg Prod.snd (loader64_eq E x.file hexec x.wellSized_file (MachContext.zero m))
    have hy := congrArg Prod.snd
      (loader64_eq E y.file (h.filetype_eq.trans hexec) y.wellSized_file (MachContext.zero m))
    rw [hx, movedBytes_atPtr, trace_atPtr] at hclear
    rw [hx, hy, movedBytes_atPtr]
    have htables' : ∀ cmd ∈ commands x.file, TableBehind x.commandsEnd cmd := by
      intro cmd hcmd
      rw [x.commands_file] at hcmd
      obtain ⟨b, hb, rfl⟩ := List.mem_map.mp hcmd
      exact htables b hb
    have hrun := foldl_execCommand_twoFiles h.drop_commandsEnd (hull_congr hsegs) htables'
      (fun _ hseg => hseg) (c := MachContext.zero m) SameRun.rfl hclear
    exact (hrun.sameResult (hsame hexec hrun)).atPtr _ _
  · have hx : (loader64 E x.file (MachContext.zero m)).2 = MachContext.zero m := by
      rw [loader64, if_pos hexec]
      rfl
    have hy : (loader64 E y.file (MachContext.zero m)).2 = MachContext.zero m := by
      rw [loader64, if_pos (by rwa [h.filetype_eq])]
      rfl
    rw [hx, hy]
    exact .rfl

/-! ## Commands behind the segments -/

/-- The kinds of commands that add to a list, set a value or store. -/
def effectiveKinds : List CommandKind := [.symtab, .dyldInfo, .loadDylib, .dyldChainedFixups]

/-- `y` is `x` with the commands behind its segments permuted; those of one kind keep their order. -/
structure NonSegmentsPermuted (x y : Executable) (segs others others' : List CommandBytes) : Prop where
  header_eq : y.header = x.header
  rest_eq : y.rest = x.rest
  cmds_eq : x.cmds = segs ++ others
  cmds_eq' : y.cmds = segs ++ others'
  segs_kind : ∀ b ∈ segs, b.kind = .segment64
  others_kind : ∀ b ∈ others, b.kind ≠ .segment64
  perm : others.Perm others'
  sameOrder : ∀ kind ∈ effectiveKinds,
    others.filter (fun b => b.kind = kind) = others'.filter fun b => b.kind = kind

theorem NonSegmentsPermuted.reordered {x y : Executable} {segs others others' : List CommandBytes}
    (h : NonSegmentsPermuted x y segs others others') : x.Reordered y where
  header_eq := h.header_eq
  rest_eq := h.rest_eq
  perm := by
    rw [h.cmds_eq, h.cmds_eq']
    exact h.perm.append_left segs

theorem ofKind_eq_nil (b : CommandBytes) :
    (b.kind ≠ .segment64 → segmentsOf [b.command] = []) ∧
      (b.kind ≠ .dyldInfo → infosOf [b.command] = []) ∧
      (b.kind ≠ .symtab → symtabsOf [b.command] = []) ∧
      (b.kind ≠ .loadDylib → dylibsOf [b.command] = []) ∧
      (b.kind ≠ .dyldChainedFixups → chainedOf [b.command] = []) := by
  unfold CommandBytes.kind CommandBytes.command commandAt kindOf
  cases commandKind (loadCommandAt b.bytes 0).cmd <;>
    simp [segmentsOf, infosOf, symtabsOf, dylibsOf, chainedOf]

theorem filterMap_command {α : Type} {g : Command → Option α} {kind : CommandKind}
    (hg : ∀ b : CommandBytes, b.kind ≠ kind → [b.command].filterMap g = [])
    {bs bs' : List CommandBytes}
    (h : bs.filter (fun b => b.kind = kind) = bs'.filter fun b => b.kind = kind) :
    (bs.map CommandBytes.command).filterMap g = (bs'.map CommandBytes.command).filterMap g := by
  have hfilter : ∀ bs : List CommandBytes, (bs.map CommandBytes.command).filterMap g =
      (bs.filter fun b => b.kind = kind).filterMap (g ∘ CommandBytes.command) := fun bs => by
    rw [List.filterMap_map, List.filterMap_filter]
    refine List.filterMap_congr fun b _ => ?_
    by_cases hb : b.kind = kind
    · rw [if_pos (by simpa using hb)]
    · rw [if_neg (by simpa using hb)]
      exact List.filterMap_eq_nil_iff.mp (hg b hb) b.command (List.mem_singleton_self _)
  rw [hfilter, hfilter, h]

theorem segmentsOf_eq_nil {bs : List CommandBytes} (h : ∀ b ∈ bs, b.kind ≠ .segment64) :
    segmentsOf (bs.map CommandBytes.command) = [] := by
  refine List.filterMap_eq_nil_iff.mpr fun cmd hcmd => ?_
  obtain ⟨b, hb, rfl⟩ := List.mem_map.mp hcmd
  exact List.filterMap_eq_nil_iff.mp ((ofKind_eq_nil b).1 (h b hb)) b.command
    (List.mem_singleton_self _)

/-- **Commands of different kinds commute**: two lists without segments that have the same commands of
each kind, in the same order. -/
theorem foldl_execCommand_sameOrder (E : Env) (f : File) (c : MachContext) {bs bs' : List CommandBytes}
    (hs : ∀ b ∈ bs, b.kind ≠ .segment64) (hs' : ∀ b ∈ bs', b.kind ≠ .segment64)
    (h : ∀ kind ∈ effectiveKinds,
      bs.filter (fun b => b.kind = kind) = bs'.filter fun b => b.kind = kind) :
    (bs.map CommandBytes.command).foldl (execCommand E f) c =
      (bs'.map CommandBytes.command).foldl (execCommand E f) c := by
  have hinfos : infosOf (bs.map CommandBytes.command) = infosOf (bs'.map CommandBytes.command) :=
    filterMap_command (fun b => (ofKind_eq_nil b).2.1) (h .dyldInfo (by decide))
  have hsymtabs : symtabsOf (bs.map CommandBytes.command) =
      symtabsOf (bs'.map CommandBytes.command) :=
    filterMap_command (fun b => (ofKind_eq_nil b).2.2.1) (h .symtab (by decide))
  have hdylibs : dylibsOf (bs.map CommandBytes.command) = dylibsOf (bs'.map CommandBytes.command) :=
    filterMap_command (fun b => (ofKind_eq_nil b).2.2.2.1) (h .loadDylib (by decide))
  have hchained : chainedOf (bs.map CommandBytes.command) =
      chainedOf (bs'.map CommandBytes.command) :=
    filterMap_command (fun b => (ofKind_eq_nil b).2.2.2.2) (h .dyldChainedFixups (by decide))
  rw [foldl_execCommand_others E f (segmentsOf_eq_nil hs),
    foldl_execCommand_others E f (segmentsOf_eq_nil hs'), MachContext.withTables, hinfos, hsymtabs,
    hdylibs, chainedRun, hchained]
  rfl

/-- **Commands behind the segments commute.** Where the tables lie behind the commands, and the chain
entries are clear of commands that the image has moved copies of, a permutation of the commands behind
the segments that keeps the order within each kind changes nothing but these copies. -/
theorem loader64_permuted (E : Env) (m : Mem 64) {x y : Executable}
    {segs others others' : List CommandBytes} (h : NonSegmentsPermuted x y segs others others')
    (htables : x.TablesBehind)
    (hclear : FixupsIn (compl (movedBytes x y (loader64 E x.file (MachContext.zero m)).2))
      (loader64 E x.file (MachContext.zero m)).2.trace) :
    SameResult (movedBytes x y (loader64 E x.file (MachContext.zero m)).2)
      (loader64 E x.file (MachContext.zero m)).2 (loader64 E y.file (MachContext.zero m)).2 := by
  have hothers' : ∀ b ∈ others', b.kind ≠ .segment64 := fun b hb =>
    h.others_kind b (h.perm.mem_iff.mpr hb)
  have hx : commands x.file =
      segs.map CommandBytes.command ++ others.map CommandBytes.command := by
    rw [x.commands_file, h.cmds_eq, List.map_append]
  have hy : commands y.file =
      segs.map CommandBytes.command ++ others'.map CommandBytes.command := by
    rw [y.commands_file, h.cmds_eq', List.map_append]
  refine sameResult_of_reordered E m h.reordered ?_ htables hclear fun _ _ => ?_
  · have happend : ∀ l l' : List Command, segmentsOf (l ++ l') = segmentsOf l ++ segmentsOf l' :=
      fun l l' => List.filterMap_append
    rw [hx, hy, happend, happend, segmentsOf_eq_nil h.others_kind, segmentsOf_eq_nil hothers']
  · rw [hx, hy, List.foldl_append, List.foldl_append,
      foldl_execCommand_sameOrder E y.file _ h.others_kind hothers' h.sameOrder]

/-! ## An executable -/

/-- The bytes of a command without a name. -/
def CommandBytes.of (bytes : List Byte)
    (h : (loadCommandAt bytes 0).cmdsize.toNat = bytes.length ∧
      (kindOf bytes).structSize ≤ bytes.length ∧ SegmentSized bytes 0 ∧ kindOf bytes ≠ .loadDylib) :
    CommandBytes := ⟨bytes, h.1, h.2.1, h.2.2.1, fun hk => absurd hk h.2.2.2⟩

/-- `__TEXT` maps the header and the load commands. -/
def sampleText : CommandBytes :=
  .of (encodeSegment64 (lit "__TEXT") 0x4000 0x1000 0 336) (by decide +kernel)

/-- Eight bytes behind the commands. -/
def sampleData : CommandBytes :=
  .of (encodeSegment64 (lit "__DATA") 0x5000 0x1000 336 8) (by decide +kernel)

/-- The rest of the file. -/
def sampleLinkedit : CommandBytes :=
  .of (encodeSegment64 (lit "__LINKEDIT") 0x6000 0x1000 344 97) (by decide +kernel)

/-- Chained fixups for the page of `__DATA`. -/
def sampleChained : CommandBytes := .of (encodeChainedFixups 344 68) (by decide +kernel)

/-- One symbol, `_main` at `0x4010`. -/
def sampleSymtab : CommandBytes := .of (encodeSymtab 412 1 428) (by decide +kernel)

/-- One bind, of `_f` at the second word of `__DATA`. -/
def sampleInfo : CommandBytes := .of (encodeDyldInfo 434 7 0 0) (by decide +kernel)

/-- What the commands point at: a word with a rebase, its fixups, a symbol, a bind. -/
def sampleRest : List Byte :=
  [leBytes 8 0x10,
    leBytes 4 0, leBytes 4 28, leBytes 4 68, leBytes 4 68, leBytes 4 0, leBytes 4 1, leBytes 4 0,
    leBytes 4 3, leBytes 4 0, leBytes 4 16, leBytes 4 0,
    leBytes 4 24, leBytes 2 0x1000, leBytes 2 malDyldChainedPtr64Offset.toNat, leBytes 8 0x1000,
    leBytes 4 0, leBytes 2 1, leBytes 2 0,
    encodeNlist64 0 0x4010, lit "_main", [0#8],
    [0x40#8], lit "_f", [0x00#8, 0x71#8, 0x08#8, 0x90#8]].flatten

/-- The six commands in some order. -/
def sampleExecutable (cmds : List CommandBytes) (h : cmds.length = 6) : Executable where
  header := encodeHeader 6
  cmds := cmds
  rest := sampleRest
  length_header := by decide +kernel
  ncmds_eq := by
    rw [h]
    decide +kernel

/-- Mapped at `0x7000`. -/
def sampleRun (x : Executable) : MachContext :=
  (loader64 { Env.plain with mmap := fun _ _ _ => some 0x7000#64 } x.file
    (MachContext.zero fun _ => 0#8)).2

/-- Segments, then fixups, symbols and binds. -/
def sampleOrder : Executable :=
  sampleExecutable [sampleText, sampleData, sampleLinkedit, sampleChained, sampleSymtab, sampleInfo] rfl

/-- The fixups moved to the end. -/
def samplePermuted : Executable :=
  sampleExecutable [sampleText, sampleData, sampleLinkedit, sampleSymtab, sampleInfo, sampleChained] rfl

theorem nonSegmentsPermuted_sample : NonSegmentsPermuted sampleOrder samplePermuted
    [sampleText, sampleData, sampleLinkedit] [sampleChained, sampleSymtab, sampleInfo]
    [sampleSymtab, sampleInfo, sampleChained] where
  header_eq := rfl
  rest_eq := rfl
  cmds_eq := rfl
  cmds_eq' := rfl
  segs_kind := by decide +kernel
  others_kind := by decide +kernel
  perm := (List.perm_append_singleton sampleChained [sampleSymtab, sampleInfo]).symm
  sameOrder := by decide +kernel

theorem loader64_permuted_sample :
    SameResult (movedBytes sampleOrder samplePermuted (sampleRun sampleOrder)) (sampleRun sampleOrder)
      (sampleRun samplePermuted) :=
  loader64_permuted _ _ nonSegmentsPermuted_sample (by decide +kernel) (by decide +kernel)

/-- **The copies of the commands move**: the fourth command of the header in the image is another one. -/
theorem image_permuted :
    NonSegmentsPermuted sampleOrder samplePermuted [sampleText, sampleData, sampleLinkedit]
        [sampleChained, sampleSymtab, sampleInfo] [sampleSymtab, sampleInfo, sampleChained] ∧
      (machHeader64 sampleOrder.file).filetype = mhExecute ∧ sampleOrder.TablesBehind ∧
      (sampleRun sampleOrder).imgAddr = 0x7000#64 ∧ (sampleRun samplePermuted).imgAddr = 0x7000#64 ∧
      (sampleRun sampleOrder).mem (0x7000#64 + 248#64) ≠
        (sampleRun samplePermuted).mem (0x7000#64 + 248#64) :=
  ⟨nonSegmentsPermuted_sample, by decide +kernel⟩

end Maloader
