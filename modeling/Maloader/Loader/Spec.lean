import Maloader.Encode
import Maloader.Bind.Program
import Maloader.Segment.Image

/-!
# A declarative specification of the loader

Where the segments come first, every part of the final context is a function of the commands of one
kind, in file order.

* **`foldl_execCommand_others`**: commands behind the segments, kind by kind.
* `offsetsOf`, `SegmentsFirst`: the commands with a given word; the segments in front.
* `segmentsOf_commands` …: the two descriptions of the commands of a kind agree.
* **`loader64_spec`**.
-/

namespace Maloader

open ByteLib

variable (E : Env) (f : File)

/-! ## Commands behind the segments -/

/-- The walks over the payloads of the chained fixups among the commands. -/
def chainedRun (cmds : List Command) (c : MachContext) : MachContext :=
  (chainedOf cmds).foldl (fun c fixups => dumpChainedFixups E f c fixups.dataoff fixups.datasize) c

theorem chainedRun_withImage (cmds : List Command) (d c : MachContext) :
    chainedRun E f cmds (d.withImage c) = d.withImage (chainedRun E f cmds c) :=
  List.foldl_hom (MachContext.withImage d) fun c _ => dumpChainedFixups_withImage E f d c _ _

theorem atImage_chainedRun (cmds : List Command) (c : MachContext) :
    AtImage c.imgAddr c.segments (chainedRun E f cmds c) := by
  refine List.foldlRecOn (motive := AtImage c.imgAddr c.segments) _ _ ⟨rfl, rfl⟩ fun c' h fixups _ => ?_
  obtain ⟨hi, ht⟩ := atImage_dumpChainedFixups E f c' fixups.dataoff fixups.datasize
  exact ⟨hi.trans h.1, ht.trans h.2⟩

/-- The registers a symbol table, a bind table or a library name changes. -/
def MachContext.withTables (c : MachContext) (E : Env) (f : File) (cmds : List Command) :
    MachContext :=
  { c with
    bList := c.bList ++ (infosOf cmds).flatMap (dyldInfoRecords E f c.segments)
    dList := c.dList ++ dylibsOf cmds
    entryPoint := (((symtabsOf cmds).flatMap (mainSymbols f)).getLast?.map (entryOf c)).or
      c.entryPoint }

theorem withTables_withTables (c : MachContext) (cmds cmds' : List Command) :
    (c.withTables E f cmds).withTables E f cmds' = c.withTables E f (cmds ++ cmds') := by
  have hentry : entryOf (c.withTables E f cmds) = entryOf c := rfl
  have hsegs : (c.withTables E f cmds).segments = c.segments := rfl
  rw [MachContext.withTables, hentry, hsegs]
  simp [MachContext.withTables, infosOf, dylibsOf, symtabsOf, Option.map_or, Option.or_assoc]

theorem execCommand_eq_withTables (c : MachContext) {cmd : Command} (hs : segmentsOf [cmd] = [])
    (hc : chainedOf [cmd] = []) : execCommand E f c cmd = c.withTables E f [cmd] := by
  cases cmd with
  | segment64 seg => simp [segmentsOf] at hs
  | dyldChainedFixups fixups => simp [chainedOf] at hc
  | dyldInfo info =>
    simp [execCommand, loadDyldInfo_eq, MachContext.withTables, infosOf, dylibsOf, symtabsOf]
  | symtab symtab =>
    simp [execCommand, loadSymtab_eq, MachContext.withTables, infosOf, dylibsOf, symtabsOf]
  | loadDylib name =>
    simp [execCommand, dylibListRetriever, MachContext.withTables, infosOf, dylibsOf, symtabsOf]
  | other => simp [execCommand, MachContext.withTables, infosOf, dylibsOf, symtabsOf]

theorem foldl_cons_of_tables {cmds : List Command} {cmd : Command} (hs : segmentsOf [cmd] = [])
    (hc : chainedOf [cmd] = []) (c : MachContext)
    (ih : ∀ c, cmds.foldl (execCommand E f) c =
      (c.withTables E f cmds).withImage (chainedRun E f cmds c)) :
    (cmd :: cmds).foldl (execCommand E f) c =
      (c.withTables E f (cmd :: cmds)).withImage (chainedRun E f cmds c) := by
  have hrun : chainedRun E f cmds (c.withTables E f [cmd]) =
      (c.withTables E f [cmd]).withImage (chainedRun E f cmds c) :=
    chainedRun_withImage E f cmds (c.withTables E f [cmd]) c
  rw [List.foldl_cons, execCommand_eq_withTables E f c hs hc, ih, withTables_withTables, hrun]
  rfl

theorem withTables_withImage (cmds : List Command) {c e : MachContext}
    (h : AtImage c.imgAddr c.segments e) (e' : MachContext) :
    ((c.withImage e).withTables E f cmds).withImage e' = (c.withTables E f cmds).withImage e' := by
  have hentry : entryOf (c.withImage e) = entryOf c := by
    funext nlist
    exact congrArg (nlist.nValue - c.vAddr + ·) h.1
  have hsegs : (c.withImage e).segments = c.segments := h.2
  rw [MachContext.withTables, hentry, hsegs]
  rfl

/-- **Commands behind the segments**: every kind does its own part, whatever the others are. -/
theorem foldl_execCommand_others {cmds : List Command} (hs : segmentsOf cmds = [])
    (c : MachContext) :
    cmds.foldl (execCommand E f) c = (c.withTables E f cmds).withImage (chainedRun E f cmds c) := by
  induction cmds generalizing c with
  | nil => simp [MachContext.withTables, MachContext.withImage, chainedRun, infosOf, dylibsOf,
      symtabsOf, chainedOf]
  | cons cmd cmds ih =>
    cases cmd with
    | segment64 seg => simp [segmentsOf] at hs
    | dyldInfo info => exact foldl_cons_of_tables E f rfl rfl c (ih hs)
    | symtab symtab => exact foldl_cons_of_tables E f rfl rfl c (ih hs)
    | loadDylib name => exact foldl_cons_of_tables E f rfl rfl c (ih hs)
    | other => exact foldl_cons_of_tables E f rfl rfl c (ih hs)
    | dyldChainedFixups fixups =>
      have hself : dumpChainedFixups E f c fixups.dataoff fixups.datasize =
          c.withImage (dumpChainedFixups E f c fixups.dataoff fixups.datasize) :=
        dumpChainedFixups_withImage E f c c _ _
      have htables : c.withTables E f (.dyldChainedFixups fixups :: cmds) = c.withTables E f cmds := rfl
      have hrun : chainedRun E f (.dyldChainedFixups fixups :: cmds) c =
          chainedRun E f cmds (dumpChainedFixups E f c fixups.dataoff fixups.datasize) := rfl
      rw [List.foldl_cons, execCommand, ih hs, htables, hrun, hself]
      exact withTables_withImage E f cmds
        (atImage_dumpChainedFixups E f c fixups.dataoff fixups.datasize) _

/-! ## Bind tables made of programs -/

/-- Both streams of a bind table are encoded programs. -/
structure BindStreams (f : File) (info : DyldInfoCommand) (bind lazyBind : List BindOp) : Prop where
  bindAt : HasAt f info.bindOff (encodeProgram bind)
  bindSize : info.bindSize = (encodeProgram bind).length
  lazyBindAt : HasAt f info.lazyBindOff (encodeProgram lazyBind)
  lazyBindSize : info.lazyBindSize = (encodeProgram lazyBind).length

/-- The rows of the two streams of a bind table. -/
def bindRows (bind lazyBind : List BindOp) : List BindRegs :=
  programRows BindRegs.init bind ++ programRows BindRegs.init lazyBind

theorem BindStreams.dyldInfoRecords_eq {f : File} {info : DyldInfoCommand}
    {bind lazyBind : List BindOp} (h : BindStreams f info bind lazyBind) (t : SegmentTable) :
    dyldInfoRecords E f t info = (bindRows bind lazyBind).map (BindRegs.record t) := by
  rw [dyldInfoRecords, bindRecords_encodeProgram t E h.bindAt (by rw [h.bindSize]),
    bindRecords_encodeProgram t E h.lazyBindAt (by rw [h.lazyBindSize]), programRecords,
    programRecords, bindRows, List.map_append]

/-! ## Commands by their words -/

/-- The offsets of the commands whose word is `w`, in file order. -/
def offsetsOf (f : File) (w : BitVec 32) : List ℕ :=
  (cmdOffsets f).filter fun p => (loadCommandAt f p).cmd = w

/-- The offsets of the bind tables, in file order. -/
def infoOffsets (f : File) : List ℕ :=
  (cmdOffsets f).filter fun p =>
    (loadCommandAt f p).cmd = lcDyldInfo ∨ (loadCommandAt f p).cmd = lcDyldInfoOnly

/-- The segment commands stand in front of all other commands. -/
def SegmentsFirst (f : File) : Prop :=
  ∃ (segs : List SegmentCommand64) (others : List Command),
    commands f = segs.map .segment64 ++ others ∧ segmentsOf others = []

/-- The low byte of `LC_DYLD_INFO` occurs in its two words only. -/
def InfoWordsOnly (f : File) : Prop :=
  ∀ p ∈ cmdOffsets f, (loadCommandAt f p).cmd &&& 0xFF#32 = lcDyldInfo →
    (loadCommandAt f p).cmd = lcDyldInfo ∨ (loadCommandAt f p).cmd = lcDyldInfoOnly

instance (f : File) : Decidable (InfoWordsOnly f) := by
  unfold InfoWordsOnly; infer_instance

theorem filterMap_eq_map_filter {α β : Type} {p : α → Prop} [DecidablePred p] {g : α → β}
    {h : α → Option β} {l : List α} (hl : ∀ a ∈ l, h a = if p a then some (g a) else none) :
    l.filterMap h = (l.filter p).map g := by
  induction l with
  | nil => rfl
  | cons a l ih =>
    have ha := hl a List.mem_cons_self
    have ih := ih fun b hb => hl b (List.mem_cons_of_mem _ hb)
    by_cases hp : p a
    · rw [if_pos hp] at ha
      simp [ha, hp, ih]
    · rw [if_neg hp] at ha
      simp [ha, hp, ih]

theorem segmentsOf_commands : segmentsOf (commands f) =
    (offsetsOf f lcSegment64).map (segmentCommand64 f) := by
  rw [segmentsOf, commands, List.filterMap_map, offsetsOf]
  refine filterMap_eq_map_filter fun p _ => ?_
  have hkind := (commandKind_word (loadCommandAt f p).cmd).1
  by_cases h : (loadCommandAt f p).cmd = lcSegment64
  · rw [if_pos h, Function.comp, commandAt, h]
    rfl
  · rw [if_neg h, Function.comp, commandAt]
    cases hk : commandKind (loadCommandAt f p).cmd with
    | segment64 => exact absurd (hkind hk) h
    | _ => rfl

theorem symtabsOf_commands : symtabsOf (commands f) =
    (offsetsOf f lcSymtab).map (symtabCommand f) := by
  rw [symtabsOf, commands, List.filterMap_map, offsetsOf]
  refine filterMap_eq_map_filter fun p _ => ?_
  have hkind := (commandKind_word (loadCommandAt f p).cmd).2.2.1
  by_cases h : (loadCommandAt f p).cmd = lcSymtab
  · rw [if_pos h, Function.comp, commandAt, h]
    rfl
  · rw [if_neg h, Function.comp, commandAt]
    cases hk : commandKind (loadCommandAt f p).cmd with
    | symtab => exact absurd (hkind hk) h
    | _ => rfl

theorem dylibsOf_commands : dylibsOf (commands f) = (offsetsOf f lcLoadDylib).map (dylibName f) := by
  rw [dylibsOf, commands, List.filterMap_map, offsetsOf]
  refine filterMap_eq_map_filter fun p _ => ?_
  have hkind := (commandKind_word (loadCommandAt f p).cmd).2.2.2.1
  by_cases h : (loadCommandAt f p).cmd = lcLoadDylib
  · rw [if_pos h, Function.comp, commandAt, h]
    rfl
  · rw [if_neg h, Function.comp, commandAt]
    cases hk : commandKind (loadCommandAt f p).cmd with
    | loadDylib => exact absurd (hkind hk) h
    | _ => rfl

theorem infosOf_commands (hinfo : InfoWordsOnly f) : infosOf (commands f) =
    (infoOffsets f).map (dyldInfoCommand f) := by
  rw [infosOf, commands, List.filterMap_map, infoOffsets]
  refine filterMap_eq_map_filter fun p hp => ?_
  have hkind := (commandKind_word (loadCommandAt f p).cmd).2.1
  by_cases h : (loadCommandAt f p).cmd = lcDyldInfo ∨ (loadCommandAt f p).cmd = lcDyldInfoOnly
  · rw [if_pos h, Function.comp, commandAt]
    rcases h with h | h <;> rw [h] <;> rfl
  · rw [if_neg h, Function.comp, commandAt]
    cases hk : commandKind (loadCommandAt f p).cmd with
    | dyldInfo => exact absurd (hinfo p hp (hkind hk)) h
    | _ => rfl

/-! ## The specification -/

theorem Maps.segmentsOf_ne_nil {E : Env} {f : File} {B : Addr} (h : Maps E f B) :
    segmentsOf (commands f) ≠ [] := by
  intro he
  refine h.hull_ne ?_
  rw [hull_eq_foldl, spannedSegments, imageSegments, he]
  rfl

/-- The context after the segments, with the image mapped at `B`. -/
def MachContext.loaded (f : File) (m : Mem 64) (B : Addr) : MachContext :=
  ((MachContext.zero m).mapped f B).placed f (segmentsOf (commands f))

@[simp] theorem vAddr_loaded (m : Mem 64) (B : Addr) :
    (MachContext.loaded f m B).vAddr = (hull f).1 := rfl

theorem entryOf_loaded (m : Mem 64) (B : Addr) :
    entryOf (MachContext.loaded f m B) = fun nlist => B + (nlist.nValue - (hull f).1) := by
  funext nlist
  exact BitVec.add_comm _ _

theorem recs_loaded (m : Mem 64) (B : Addr) : (MachContext.loaded f m B).segments.recs =
    ((segmentsOf (commands f)).map (recordOf B (hull f).1)).take machLoaderMaxSegments := by
  have hempty : ((MachContext.zero m).mapped f B).segments.recs = [] := rfl
  rw [MachContext.loaded, MachContext.placed]
  dsimp only
  rw [SegmentTable.recs_pushAll, hempty, List.nil_append, MachContext.mapped]

theorem withTables_loaded (m : Mem 64) (B : Addr) :
    (MachContext.loaded f m B).withTables E f (commands f) =
      { MachContext.loaded f m B with
        bList := (infosOf (commands f)).flatMap
          (dyldInfoRecords E f (MachContext.loaded f m B).segments)
        dList := dylibsOf (commands f)
        entryPoint := ((symtabsOf (commands f)).flatMap (mainSymbols f)).getLast?.map
          (entryOf (MachContext.loaded f m B)) } := by
  have hb : (MachContext.loaded f m B).bList = [] := rfl
  have hd : (MachContext.loaded f m B).dList = [] := rfl
  have he : (MachContext.loaded f m B).entryPoint = none := rfl
  rw [MachContext.withTables, hb, hd, he, List.nil_append, List.nil_append, Option.or_none]

/-- **Segments, then tables, then chained fixups**: the whole run where the segments come first. -/
theorem loader64_segmentsFirst {B : Addr} (h : Maps E f B)
    (hexec : (machHeader64 f).filetype = mhExecute) (hs : WellSized f) (hfirst : SegmentsFirst f)
    (m : Mem 64) :
    loader64 E f (MachContext.zero m) = (0,
      (((MachContext.loaded f m B).withTables E f (commands f)).withImage
        (chainedRun E f (commands f) (MachContext.loaded f m B))).atPtr
          (cmdEnd f (machHeader64 f).ncmds.toNat machHeader64Size)) := by
  obtain ⟨segs, others, hcmds, hothers⟩ := hfirst
  have hsegs : segmentsOf (commands f) = segs := by
    have hmap : segmentsOf (segs.map .segment64) = segs := by
      simp [segmentsOf, List.filterMap_map]
    rw [hcmds, segmentsOf, List.filterMap_append, ← segmentsOf, ← segmentsOf, hmap, hothers,
      List.append_nil]
  have hrun : (segs.map Command.segment64).foldl (execCommand E f) (MachContext.zero m) =
      MachContext.loaded f m B := by
    rw [List.foldl_map]
    exact (foldl_execSegment E f h rfl rfl (hsegs ▸ h.segmentsOf_ne_nil)).trans (by rw [← hsegs]; rfl)
  have htables : ∀ c : MachContext, c.withTables E f others = c.withTables E f (commands f) := by
    intro c
    simp [hcmds, MachContext.withTables, infosOf, dylibsOf, symtabsOf, List.filterMap_map]
  have hchained : chainedRun E f others = chainedRun E f (commands f) := by
    funext c
    simp [hcmds, chainedRun, chainedOf, List.filterMap_map]
  have hfold : (commands f).foldl (execCommand E f) (MachContext.zero m) =
      ((MachContext.loaded f m B).withTables E f others).withImage
        (chainedRun E f others (MachContext.loaded f m B)) := by
    conv_lhs => rw [hcmds]
    rw [List.foldl_append, hrun]
    exact foldl_execCommand_others E f hothers _
  rw [loader64_eq E f hexec hs, hfold, htables, hchained]

/-- **The loader meets its specification**: every segment is recorded while there is room, in file
order; the names of the libraries and the records of the bind tables are listed in file order; the
last symbol named `_main` gives the entry point. -/
theorem loader64_spec {B : Addr} (hexec : (machHeader64 f).filetype = mhExecute)
    (hs : WellSized f) (hfirst : SegmentsFirst f) (hinfo : InfoWordsOnly f) (h : Maps E f B)
    (m : Mem 64) :
    let r := loader64 E f (MachContext.zero m)
    let c := r.2
    let segs := (offsetsOf f lcSegment64).map (segmentCommand64 f)
    r.1 = 0 ∧ c.imgAddr = B ∧ c.vAddr = (hull f).1 ∧
      c.segments.recs.length = min machLoaderMaxSegments segs.length ∧
      (∀ (i : ℕ) (s : SegmentInfo), c.segments.recs[i]? = some s → ∃ seg, segs[i]? = some seg ∧
        s.segname = seg.segname ∧ s.vmaddr = seg.vmaddr ∧ s.vmsize = seg.vmsize ∧
        s.mappedAddr = if seg.isPagezero then 0#64 else if seg.isText then B
          else B + (seg.vmaddr - (hull f).1)) ∧
      c.dList = (offsetsOf f lcLoadDylib).map (dylibName f) ∧
      c.bList = (infoOffsets f).flatMap (fun p =>
        let info := dyldInfoCommand f p
        bindRecords E f c.segments info.bindOff (info.bindOff + info.bindSize) ++
          bindRecords E f c.segments info.lazyBindOff (info.lazyBindOff + info.lazyBindSize)) ∧
      c.entryPoint = ((offsetsOf f lcSymtab).flatMap fun p =>
        mainSymbols f (symtabCommand f p)).getLast?.map fun nlist =>
          B + (nlist.nValue - (hull f).1) := by
  intro r c segs
  have hsegs : segmentsOf (commands f) = segs := segmentsOf_commands f
  have hr : r = _ := loader64_segmentsFirst E f h hexec hs hfirst m
  obtain ⟨himg, htable⟩ := atImage_chainedRun E f (commands f) (MachContext.loaded f m B)
  clear_value r
  -- What the chained fixups do to the image plays no part here.
  generalize chainedRun E f (commands f) (MachContext.loaded f m B) = e at hr himg htable
  rw [withTables_loaded] at hr
  subst hr
  dsimp only [c, MachContext.withImage, MachContext.atPtr]
  rw [htable, recs_loaded, hsegs]
  refine ⟨rfl, himg, vAddr_loaded f m B, ?_, ?_, ?_, ?_, ?_⟩
  · rw [List.length_take, List.length_map]
  · intro i s hi
    rw [List.getElem?_take] at hi
    split_ifs at hi
    rw [List.getElem?_map, Option.map_eq_some_iff] at hi
    obtain ⟨seg, hseg, rfl⟩ := hi
    exact ⟨seg, hseg, rfl, rfl, rfl, rfl⟩
  · exact dylibsOf_commands f
  · rw [infosOf_commands f hinfo, List.flatMap_map]
    simp only [dyldInfoRecords]
  · rw [symtabsOf_commands, List.flatMap_map, entryOf_loaded]

theorem sin_named : 0#8 ∉ lit "_sin" := by decide

theorem nope_named : 0#8 ∉ lit "_nope" := by decide

theorem puts_named : 0#8 ∉ lit "_puts" := by decide

/-- Binds of `sin`, sixteen bytes into the third segment, and of `nope` behind it. -/
def classicProgram : List BindOp :=
  [.setSymbolTrailingFlagsImm 0 ⟨lit "_sin", sin_named⟩,
    .setSegmentAndOffsetUleb 2 (Uleb.ofByte 0x10 (by decide)), .doBind 0,
    .setSymbolTrailingFlagsImm 0 ⟨lit "_nope", nope_named⟩, .doBind 0]

/-- A lazy bind of `puts`, 32 bytes into the second segment. -/
def classicLazyProgram : List BindOp :=
  [.setSegmentAndOffsetUleb 1 (Uleb.ofByte 0x20 (by decide)),
    .setSymbolTrailingFlagsImm 0 ⟨lit "_puts", puts_named⟩, .doBind 0, .done 0]

/-- `__PAGEZERO`, `__TEXT` and `__DATA`; two libraries; the binds; and `_main` at `0x4010`, another symbol,
and `_main` at `0x4020`. -/
def classicFile : File :=
  [encodeHeader 7, encodeSegment64 (lit "__PAGEZERO") 0 0x4000 0 0,
    encodeSegment64 (lit "__TEXT") 0x4000 0x1000 0 4, encodeSegment64 (lit "__DATA") 0x5000 0x1000 465 32,
    encodeLoadDylib (lit "libz"), encodeDyldInfo 378 17 395 11, encodeSymtab 406 3 454,
    encodeLoadDylib (lit "libm"), encodeProgram classicProgram, encodeProgram classicLazyProgram,
    encodeNlist64 0 0x4010, encodeNlist64 6 0x5000, encodeNlist64 0 0x4020, lit "_main" ++ [0#8],
    lit "_aux" ++ [0#8], List.replicate 24 0x11#8, leBytes 8 0x1234].flatten

/-- Mapped at `0x7000`: `__PAGEZERO` has no place, and the last `_main` counts. -/
theorem loader64_spec_classicFile :
    let E := { Env.plain with mmap := fun _ _ _ => some 0x7000#64 }
    ∃ c, loader64 E classicFile (MachContext.zero fun _ => 0#8) = (0, c) ∧
      c.segments.recs.length = 3 ∧
      (∀ s, c.segments.recs[0]? = some s → s.mappedAddr = 0#64) ∧
      (∀ s, c.segments.recs[2]? = some s → s.mappedAddr = 0x8000#64) ∧
      c.dList = [lit "libz", lit "libm"] ∧
      c.bList.map BindInfo.address = [0x8010#64, 0x8018#64, 0x7020#64] ∧
      c.entryPoint = some 0x7020#64 := by
  intro E
  have hfirst : SegmentsFirst classicFile :=
    ⟨segmentsOf (commands classicFile), (commands classicFile).drop 3, by decide +kernel,
      by decide +kernel⟩
  have hhull : hull classicFile = (0x4000#64, 0x6000#64) := by decide +kernel
  have hmaps : Maps E classicFile 0x7000#64 :=
    ⟨by rw [hhull]; decide, by rw [hhull]; decide, rfl, by decide, by rw [hhull]; decide⟩
  have hspec := loader64_spec E classicFile (by decide +kernel) (by decide +kernel) hfirst
    (by decide +kernel) hmaps fun _ => 0#8
  obtain ⟨⟨result, c⟩, hload⟩ :
    ∃ r, loader64 E classicFile (MachContext.zero fun _ => 0#8) = r := ⟨_, rfl⟩
  have hc : c = (loader64 E classicFile (MachContext.zero fun _ => 0#8)).2 := by rw [hload]
  have hsegs : (offsetsOf classicFile lcSegment64).map (segmentCommand64 classicFile) =
      [⟨72, lit "__PAGEZERO" ++ List.replicate 6 0#8, 0#64, 0x4000#64, 0#64, 0#64, 0#32⟩,
        ⟨72, lit "__TEXT" ++ List.replicate 10 0#8, 0x4000#64, 0x1000#64, 0#64, 4#64, 0#32⟩,
        ⟨72, lit "__DATA" ++ List.replicate 10 0#8, 0x5000#64, 0x1000#64, 465#64, 32#64, 0#32⟩] := by
    decide +kernel
  rw [hload, hsegs, hhull] at hspec
  obtain ⟨hresult, -, -, hlen, hrecs, hdlist, hblist, hentry⟩ := hspec
  dsimp only at hresult hlen hrecs hdlist hblist hentry
  refine ⟨c, by rw [hload, hresult], hlen, fun s hs => ?_, fun s hs => ?_, ?_, ?_, ?_⟩
  · obtain ⟨seg, hseg, -, -, -, hmapped⟩ := hrecs 0 s hs
    obtain rfl := Option.some.inj hseg
    exact hmapped.trans (by decide)
  · obtain ⟨seg, hseg, -, -, -, hmapped⟩ := hrecs 2 s hs
    obtain rfl := Option.some.inj hseg
    exact hmapped.trans (by decide)
  · rw [hdlist]
    decide +kernel
  · rw [hblist, hc]
    decide +kernel
  · rw [hentry]
    decide +kernel

end Maloader
