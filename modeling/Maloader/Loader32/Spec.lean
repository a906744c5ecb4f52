import Maloader.Loader32.Mapping

/-!
# A declarative specification of the 32-bit loader

Where the segments come first, the context after a run is a function of the commands of each kind and
of the answers of `mmap`.

* `segmentsOf32` …: the commands of one kind, in order.
* `recordAt32`, `segmentRecords`: what is recorded about the segments, given the calls of `mmap`;
  `foldlM_segments`.
* `MachContext.withTables32`, `foldlM_others32`: the commands behind the segments.
* `loader_segmentsFirst`, **`loader_spec`**: the whole run.
-/

namespace Maloader

open ByteLib FallibleLib ActionLib

/-! ## The commands of one kind -/

/-- The segments, in order. -/
def segmentsOf32 (cmds : List Command32) : List SegmentCommand :=
  cmds.filterMap fun cmd => match cmd with
    | .segment seg => some seg
    | _ => none

/-- The bind tables, in order. -/
def infosOf32 (cmds : List Command32) : List DyldInfoCommand :=
  cmds.filterMap fun cmd => match cmd with
    | .dyldInfo info => some info
    | _ => none

/-- The symbol tables, in order. -/
def symtabsOf32 (cmds : List Command32) : List SymtabCommand :=
  cmds.filterMap fun cmd => match cmd with
    | .symtab symtab => some symtab
    | _ => none

/-- The names of the libraries, in order. -/
def dylibsOf32 (cmds : List Command32) : List CString :=
  cmds.filterMap fun cmd => match cmd with
    | .loadDylib name => some name
    | _ => none

variable (E : Env) (f : File)

/-! ## Segments -/

/-- The record of a segment while `(img_addr, v_addr)` is `place`. -/
def recordAt32 (place : Addr × Addr) (seg : SegmentCommand) : SegmentInfo where
  segname := seg.segname
  vmaddr := seg.vmaddr.zeroExtend 64
  vmsize := seg.vmsize.zeroExtend 64
  mappedAddr :=
    if seg.isPagezero then 0#64
    else if seg.isText then place.1
    else if place.1 ≠ 0#64 ∧ place.2 ≠ 0#64 then
      place.1 + (seg.vmaddr.zeroExtend 64 - place.2)
    else 0#64

/-- The records of the segments behind the first `k` calls: a `__TEXT` segment takes the next call, and
every record is about the call taken last. -/
def segmentRecords (calls : List MmapCall) : ℕ → List SegmentCommand → List SegmentInfo
  | _, [] => []
  | k, seg :: segs =>
    let k := if seg.isText then k + 1 else k
    recordAt32 (textPlace (calls.take k)) seg :: segmentRecords calls k segs

variable {E f}

theorem execSegment32_cases {c d : MachContext} {seg : SegmentCommand} {m : Mem 64}
    (hc : TextsPlaced f m c) (h : execSegment32 E f c seg = some d) :
    d = c.withLoad d ∧ d.segments = c.segments.push (recordAt32 (textPlace d.mmaps) seg) ∧
      c.mmaps <+: d.mmaps ∧ d.mmaps.length = if seg.isText then c.mmaps.length + 1 else c.mmaps.length := by
  have hexec : execCommand32 E f c (.segment seg) = some d := h
  have hplace := (execCommand32_placed hc hexec).place
  obtain ⟨c', hmap, rfl⟩ := Option.map_eq_some_iff.mp h
  rw [← hplace]
  split_ifs at hmap with htext
  · obtain ⟨B, -, rfl⟩ := mapText_eq_some E f hmap
    exact ⟨rfl, rfl, List.prefix_append _ _, by rw [if_pos htext, List.length_append]; rfl⟩
  · obtain rfl := Option.some.inj hmap
    exact ⟨rfl, rfl, List.prefix_rfl, by rw [if_neg htext]⟩

/-- **The segments in front**: each is recorded where the call made last has put it. -/
theorem foldlM_segments {segs : List SegmentCommand} {c d : MachContext} {m : Mem 64}
    (hc : TextsPlaced f m c)
    (hrun : (segs.map Command32.segment).foldlM (execCommand32 E f) c = some d) :
    d = c.withLoad d ∧ c.mmaps <+: d.mmaps ∧
      d.segments = c.segments.pushAll (segmentRecords d.mmaps c.mmaps.length segs) := by
  induction segs generalizing c with
  | nil =>
    obtain rfl : c = d := Option.some.inj hrun
    exact ⟨rfl, List.prefix_rfl, rfl⟩
  | cons seg segs ih =>
    rw [List.map_cons, List.foldlM_cons, Option.bind_eq_bind] at hrun
    obtain ⟨c', hexec, hrest⟩ := Option.bind_eq_some_iff.mp hrun
    obtain ⟨hload, hpush, hprefix, hlength⟩ := execSegment32_cases hc hexec
    obtain ⟨hload', hprefix', hpushAll⟩ := ih (execCommand32_placed hc hexec) hrest
    have htake : d.mmaps.take c'.mmaps.length = c'.mmaps := List.prefix_iff_eq_take.mp hprefix' |>.symm
    refine ⟨?_, hprefix.trans hprefix', ?_⟩
    · rw [hload', hload]
      rfl
    · rw [hpushAll, hpush, segmentRecords, ← hlength, htake]
      rfl

/-! ## The commands behind the segments -/

variable (E f)

/-- The registers a symbol table, a bind table or a library name changes. -/
def MachContext.withTables32 (c : MachContext) (cmds : List Command32) : MachContext :=
  { c with
    bList := c.bList ++ (infosOf32 cmds).flatMap (dyldInfoRecords E f c.segments)
    dList := c.dList ++ dylibsOf32 cmds
    entryPoint := (((symtabsOf32 cmds).flatMap (mainSymbols32 f)).getLast?.map (entryOf32 c)).or
      c.entryPoint }

theorem withTables32_nil (c : MachContext) : c.withTables32 E f [] = c := by
  simp [MachContext.withTables32, infosOf32, dylibsOf32, symtabsOf32]

theorem withTables32_cons (c : MachContext) (cmd : Command32) (cmds : List Command32) :
    (c.withTables32 E f [cmd]).withTables32 E f cmds = c.withTables32 E f (cmd :: cmds) := by
  have hentry : entryOf32 (c.withTables32 E f [cmd]) = entryOf32 c := rfl
  have hsegs : (c.withTables32 E f [cmd]).segments = c.segments := rfl
  have happend : cmd :: cmds = [cmd] ++ cmds := rfl
  rw [MachContext.withTables32, hentry, hsegs, happend]
  simp only [MachContext.withTables32, infosOf32, dylibsOf32, symtabsOf32, List.filterMap_append,
    List.flatMap_append, List.append_assoc, List.getLast?_append, Option.map_or, Option.or_assoc]

theorem execCommand32_eq_withTables32 (c : MachContext) {cmd : Command32}
    (hs : segmentsOf32 [cmd] = []) : execCommand32 E f c cmd = some (c.withTables32 E f [cmd]) := by
  cases cmd with
  | segment seg => simp [segmentsOf32] at hs
  | dyldInfo info =>
    simp [execCommand32, loadDyldInfo_eq, MachContext.withTables32, infosOf32, dylibsOf32, symtabsOf32]
  | symtab symtab =>
    simp [execCommand32, loadSymtab32_eq, MachContext.withTables32, infosOf32, dylibsOf32, symtabsOf32]
  | loadDylib name =>
    simp [execCommand32, dylibListRetriever, MachContext.withTables32, infosOf32, dylibsOf32,
      symtabsOf32]
  | other => simp [execCommand32, MachContext.withTables32, infosOf32, dylibsOf32, symtabsOf32]

/-- **Commands behind the segments** cannot fail, and every kind does its own part. -/
theorem foldlM_others32 {cmds : List Command32} (hs : segmentsOf32 cmds = []) (c : MachContext) :
    cmds.foldlM (execCommand32 E f) c = some (c.withTables32 E f cmds) := by
  induction cmds generalizing c with
  | nil => exact congrArg some (withTables32_nil E f c).symm
  | cons cmd cmds ih =>
    have hhead : segmentsOf32 [cmd] = [] := by cases cmd <;> simp_all [segmentsOf32]
    have htail : segmentsOf32 cmds = [] := by cases cmd <;> simp_all [segmentsOf32]
    rw [List.foldlM_cons, execCommand32_eq_withTables32 E f c hhead, Option.bind_eq_bind,
      Option.bind_some, ih htail, withTables32_cons]

theorem tables_withTables32 {d : MachContext} {m : Mem 64} (hd : d = (MachContext.zero m).withLoad d)
    (cmds : List Command32) :
    (d.withTables32 E f cmds).dList = dylibsOf32 cmds ∧
      (d.withTables32 E f cmds).bList =
        (infosOf32 cmds).flatMap (dyldInfoRecords E f d.segments) ∧
      (d.withTables32 E f cmds).entryPoint =
        ((symtabsOf32 cmds).flatMap (mainSymbols32 f)).getLast?.map (entryOf32 d) := by
  have hblist : d.bList = [] := by rw [hd]; rfl
  have hdlist : d.dList = [] := by rw [hd]; rfl
  have hentry : d.entryPoint = none := by rw [hd]; rfl
  simp only [MachContext.withTables32, hblist, hdlist, hentry, List.nil_append, Option.or_none,
    true_and]

/-! ## The specification -/

theorem loader_segmentsFirst {m : Mem 64} (hexec : (machHeader f).filetype = mhExecute)
    {segs : List SegmentCommand} {others : List Command32}
    (hfirst : commands32 f = segs.map .segment ++ others) (hothers : segmentsOf32 others = [])
    {result : ℤ} {c : MachContext} (h : loader E f (MachContext.zero m) = some (result, c)) :
    ∃ d p, TextsPlaced f m d ∧ d = (MachContext.zero m).withLoad d ∧
      d.segments.recs = (segmentRecords d.mmaps 0 segs).take machLoaderMaxSegments ∧
      c = (d.withTables32 E f others).atPtr p := by
  obtain ⟨-, e, p, hrun, rfl⟩ := loader_eq_some hexec h
  rw [hfirst, List.foldlM_append, Option.bind_eq_bind] at hrun
  obtain ⟨d, hsegs, hrest⟩ := Option.bind_eq_some_iff.mp hrun
  rw [foldlM_others32 E f hothers, Option.some_inj] at hrest
  subst hrest
  have hzero : TextsPlaced f m (MachContext.zero m) :=
    ⟨fun _ h => absurd h List.not_mem_nil, rfl, rfl, rfl⟩
  obtain ⟨hload, -, hpush⟩ := foldlM_segments hzero hsegs
  exact ⟨d, p, foldlM_placed hsegs, hload,
    (congrArg SegmentTable.recs hpush).trans (SegmentTable.recs_pushAll _ _), rfl⟩

/-- **The 32-bit loader meets its specification.** Let the segments come first among the commands that
the run comes to, and let the run come to its end. Then every segment is recorded while there is room,
in file order and relative to the last `__TEXT` in front of it; libraries and bind records are listed
in file order, the records by the whole table of segments; the last symbol named `_main` gives the
entry point relative to the last `__TEXT`; nothing is counted. -/
theorem loader_spec (E : Env) (f : File) (m : Mem 64) (hexec : (machHeader f).filetype = mhExecute)
    {segs : List SegmentCommand} {others : List Command32}
    (hfirst : commands32 f = segs.map .segment ++ others) (hothers : segmentsOf32 others = [])
    {result : ℤ} {c : MachContext} (h : loader E f (MachContext.zero m) = some (result, c)) :
    c.segments.recs = (segmentRecords c.mmaps 0 segs).take machLoaderMaxSegments ∧
      c.dList = dylibsOf32 others ∧
      c.bList = (infosOf32 others).flatMap (dyldInfoRecords E f c.segments) ∧
      c.entryPoint = (((symtabsOf32 others).flatMap (mainSymbols32 f)).getLast?.map fun sym =>
        (textPlace c.mmaps).1 + (sym.nValue.zeroExtend 64 - (textPlace c.mmaps).2)) ∧
      c.chainedRebaseCount = 0#32 ∧ c.chainedBindCount = 0#32 ∧
      c.chainedUnresolvedBindCount = 0#32 := by
  obtain ⟨d, p, hplaced, hload, hrecs, rfl⟩ := loader_segmentsFirst E f hexec hfirst hothers h
  obtain ⟨hdlist, hblist, hentry⟩ := tables_withTables32 E f hload others
  have hrebase : d.chainedRebaseCount = 0#32 := by rw [hload]; rfl
  have hbind : d.chainedBindCount = 0#32 := by rw [hload]; rfl
  have hunresolved : d.chainedUnresolvedBindCount = 0#32 := by rw [hload]; rfl
  have himg : d.imgAddr = (textPlace d.mmaps).1 := congrArg Prod.fst hplaced.place
  have hv : d.vAddr = (textPlace d.mmaps).2 := congrArg Prod.snd hplaced.place
  refine ⟨hrecs, hdlist, hblist, hentry.trans ?_, hrebase, hbind, hunresolved⟩
  unfold entryOf32
  rw [himg, hv]
  rfl

/-- A symbol of a 32-bit table. -/
def encodeNlist (nStrx nValue : ℕ) : File := leBytes 4 nStrx ++ leBytes 4 0 ++ leBytes 4 nValue

/-- Data in front of `__TEXT` and behind it, a library, a symbol table, and three pages of file. -/
def mainFile32 : File :=
  encodeHeader32 5 ++ encodeSegment (lit "__DATA") 0x3000 0x1000 0 0 ++
    encodeSegment segText 0x4000 0x1000 0 0x1000 ++ encodeSegment (lit "__BSS") 0x6000 0x1000 0 0 ++
      encodeLoadDylib (lit "libz") ++ encodeSymtab 249 1 261 ++ encodeNlist 0 0x4010 ++
        (lit "_main" ++ [0#8]) ++ List.replicate 0x3000 0#8

/-- Mapped at `0x7000`, the symbol is at `0x7010`; the data in front of `__TEXT` has no place. -/
theorem loader_spec_mainFile32 :
    let E := { Env.plain with mmap := fun _ _ _ => some 0x7000#64 }
    ∃ result c, loader E mainFile32 (MachContext.zero fun _ => 0#8) = some (result, c) ∧
      c.segments.recs.map SegmentInfo.mappedAddr = [0#64, 0x7000#64, 0x9000#64] ∧
      c.dList = [lit "libz"] ∧ c.entryPoint = some 0x7010#64 := by
  intro E
  have hexec : (machHeader mainFile32).filetype = mhExecute := by decide +kernel
  have hrun : (loader E mainFile32 (MachContext.zero fun _ => 0#8)).isSome := by decide +kernel
  obtain ⟨⟨result, c⟩, h⟩ := Option.isSome_iff_exists.mp hrun
  have hcalls := mmaps_loader (E := E) hexec fun _ => 0#8
  rw [h, Option.map_some] at hcalls
  have hmmaps : c.mmaps = [⟨0x4000#64, 0x4000#64, some 0x7000#64⟩] :=
    Option.some.inj (hcalls.trans (by decide +kernel))
  have hfirst : commands32 mainFile32 =
      (segmentsOf32 (commands32 mainFile32)).map .segment ++ (commands32 mainFile32).drop 3 := by
    decide +kernel
  obtain ⟨hrecs, hdlist, -, hentry, -⟩ := loader_spec E mainFile32 (fun _ => 0#8) hexec hfirst
    (by decide +kernel) h
  rw [hmmaps] at hrecs hentry
  refine ⟨result, c, h, ?_, hdlist.trans (by decide +kernel), hentry.trans (by decide +kernel)⟩
  rw [hrecs]
  decide +kernel

end Maloader
