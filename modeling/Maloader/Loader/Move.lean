import Maloader.Loader.Reorder

/-!
# A command moved in front of segments

A symbol table, a bind table or chained fixups that stand behind the segments may as well stand in
front of those they do not refer to. In front of the others they give something else.

* `imgAddr_ne_of_segment`, `length_recs_foldl`: what the first segments of a run establish.
* `symtab_past`, `dyldInfo_past`, **`chained_past`**: one command in front of or behind others.
* `CommandMoved`, `RefersBefore`, **`loader64_moved`**: executables with one command moved.
* `results_moved`: the three kinds in front of segments they refer to.
-/

namespace Maloader

open ByteLib ActionLib

variable {E : Env} {f : File}

/-! ## What segments establish -/

theorem segmentsOf_cons_of_ne {cmd : Command} (h : ¬ ∃ seg, cmd = .segment64 seg)
    (cmds : List Command) : segmentsOf (cmd :: cmds) = segmentsOf cmds := by
  cases cmd with
  | segment64 seg => exact absurd ⟨seg, rfl⟩ h
  | _ => rfl

theorem imgAddr_ensureImageMapping64_congr {c c' : MachContext} (hi : c.imgAddr = 0#64)
    (hi' : c'.imgAddr = 0#64) (hm : c.mmaps = c'.mmaps) :
    (ensureImageMapping64 E f c).2.imgAddr = (ensureImageMapping64 E f c').2.imgAddr := by
  unfold ensureImageMapping64
  rw [if_neg (not_not.mpr hi), if_neg (not_not.mpr hi'), hm]
  dsimp only
  split_ifs
  · exact hi.trans hi'.symm
  · split
    · exact hi.trans hi'.symm
    · rfl

theorem imgAddr_ne_of_segment {m : Mem 64}
    (hgrant : (ensureImageMapping64 E f (MachContext.zero m)).2.imgAddr ≠ 0#64) {cmds : List Command}
    (hs : segmentsOf cmds ≠ []) {c : MachContext} (hi : c.imgAddr = 0#64) (hm : c.mmaps = []) :
    (cmds.foldl (execCommand E f) c).imgAddr ≠ 0#64 := by
  induction cmds generalizing c with
  | nil => exact absurd rfl hs
  | cons cmd cmds ih =>
    rw [List.foldl_cons]
    by_cases hcmd : ∃ seg, cmd = .segment64 seg
    · obtain ⟨seg, rfl⟩ := hcmd
      have himg : (execCommand E f c (.segment64 seg)).imgAddr ≠ 0#64 := by
        have hcopy := (copySegment_fields f (ensureImageMapping64 E f c).2 seg).1
        have hsame := imgAddr_ensureImageMapping64_congr (E := E) (f := f) hi
          (rfl : (MachContext.zero m).imgAddr = 0#64) hm
        exact fun h0 => hgrant (hsame.symm.trans (hcopy.symm.trans h0))
      rwa [(image_foldl_execCommand E f himg cmds).1]
    · obtain ⟨hi', -, hm', -⟩ := keeps_execCommand E f c fun seg he => hcmd ⟨seg, he⟩
      exact ih (by rwa [segmentsOf_cons_of_ne hcmd] at hs) (hi'.trans hi) (hm'.trans hm)

theorem recs_foldl_execCommand (c : MachContext) (cmds : List Command) :
    c.segments.recs <+: (cmds.foldl (execCommand E f) c).segments.recs :=
  List.foldlRecOn (motive := fun d : MachContext => c.segments.recs <+: d.segments.recs) cmds _
    List.prefix_rfl fun d hd cmd _ => hd.trans (recs_execCommand E f d cmd)

theorem length_recs_foldl (c : MachContext) (cmds : List Command) :
    (cmds.foldl (execCommand E f) c).segments.recs.length =
      min machLoaderMaxSegments (c.segments.recs.length + (segmentsOf cmds).length) := by
  induction cmds generalizing c with
  | nil =>
    have hle := c.segments.length_le
    exact (min_eq_right hle).symm
  | cons cmd cmds ih =>
    rw [List.foldl_cons, ih]
    by_cases hcmd : ∃ seg, cmd = .segment64 seg
    · obtain ⟨seg, rfl⟩ := hcmd
      have hcons : (segmentsOf (.segment64 seg :: cmds)).length = (segmentsOf cmds).length + 1 := rfl
      rw [hcons, execCommand, segments_execSegment, SegmentTable.recs_push]
      split_ifs with hroom
      · rw [List.length_append, List.length_singleton]
        omega
      · omega
    · rw [segmentsOf_cons_of_ne hcmd, (keeps_execCommand E f c fun seg he => hcmd ⟨seg, he⟩).2.2.2.1]

theorem getElem?_recs_of_prefix {t t' : SegmentTable} (hp : t.recs <+: t'.recs) {n i : ℕ}
    (hlength : t.recs.length = min machLoaderMaxSegments n) (hi : i < n) : t'.recs[i]? = t.recs[i]? := by
  by_cases hlt : i < t.recs.length
  · obtain ⟨u, hu⟩ := hp
    rw [← hu, List.getElem?_append_left hlt]
  · have hle := t'.length_le
    have hle' := hp.length_le
    rw [List.getElem?_eq_none (by omega), List.getElem?_eq_none (by omega)]

/-! ## Tables in front of others -/

/-- The context with another entry point and bind list. -/
def MachContext.withRegs (c : MachContext) (entryPoint : Option Addr) (bList : List BindInfo) :
    MachContext := { c with entryPoint := entryPoint, bList := bList }

theorem execCommand_symtab (c : MachContext) (symtab : SymtabCommand) :
    execCommand E f c (.symtab symtab) =
      c.withRegs (((mainSymbols f symtab).getLast?.map (entryOf c)).or c.entryPoint) c.bList :=
  loadSymtab_eq f c symtab

theorem execCommand_dyldInfo (c : MachContext) (info : DyldInfoCommand) :
    execCommand E f c (.dyldInfo info) =
      c.withRegs c.entryPoint (c.bList ++ dyldInfoRecords E f c.segments info) :=
  loadDyldInfo_eq E f c info

theorem execCommand_withRegs (c : MachContext) (entryPoint : Option Addr) (bList : List BindInfo)
    {cmd : Command} (hs : ∀ symtab, cmd ≠ .symtab symtab) (hi : ∀ info, cmd ≠ .dyldInfo info) :
    execCommand E f (c.withRegs entryPoint bList) cmd =
        (execCommand E f c cmd).withRegs entryPoint bList ∧
      (execCommand E f c cmd).entryPoint = c.entryPoint ∧
      (execCommand E f c cmd).bList = c.bList := by
  cases cmd with
  | segment64 seg =>
    have hself : execSegment E f c seg = c.withLoad (execSegment E f c seg) :=
      execSegment_withLoad E f c c seg
    have hregs : execSegment E f (c.withRegs entryPoint bList) seg =
        (c.withRegs entryPoint bList).withLoad (execSegment E f c seg) :=
      execSegment_withLoad E f (c.withRegs entryPoint bList) c seg
    rw [execCommand, execCommand, hregs, hself]
    exact ⟨rfl, rfl, rfl⟩
  | dyldInfo info => exact absurd rfl (hi info)
  | symtab symtab => exact absurd rfl (hs symtab)
  | loadDylib name => exact ⟨rfl, rfl, rfl⟩
  | dyldChainedFixups fixups =>
    have hself : dumpChainedFixups E f c fixups.dataoff fixups.datasize =
        c.withImage (dumpChainedFixups E f c fixups.dataoff fixups.datasize) :=
      dumpChainedFixups_withImage E f c c _ _
    have hregs : dumpChainedFixups E f (c.withRegs entryPoint bList) fixups.dataoff fixups.datasize =
        (c.withRegs entryPoint bList).withImage
          (dumpChainedFixups E f c fixups.dataoff fixups.datasize) :=
      dumpChainedFixups_withImage E f (c.withRegs entryPoint bList) c _ _
    rw [execCommand, execCommand, hregs, hself]
    exact ⟨rfl, rfl, rfl⟩
  | other => exact ⟨rfl, rfl, rfl⟩

theorem symtab_dyldInfo_comm (c : MachContext) (symtab : SymtabCommand) (info : DyldInfoCommand) :
    execCommand E f (execCommand E f c (.symtab symtab)) (.dyldInfo info) =
      execCommand E f (execCommand E f c (.dyldInfo info)) (.symtab symtab) := by
  rw [execCommand_dyldInfo, execCommand_symtab, execCommand_symtab, execCommand_dyldInfo]
  rfl

variable {c : MachContext} {cmds : List Command}

theorem symtab_past {symtab : SymtabCommand} (hcmds : ∀ symtab', .symtab symtab' ∉ cmds)
    (hi : c.imgAddr ≠ 0#64) :
    cmds.foldl (execCommand E f) (execCommand E f c (.symtab symtab)) =
      execCommand E f (cmds.foldl (execCommand E f) c) (.symtab symtab) := by
  refine foldl_past (P := fun s : MachContext => s.imgAddr ≠ 0#64) (fun s cmd _ hs => ?_)
    (fun s cmd hcmd hs => ?_) hi
  · rwa [(image_execCommand E f hs cmd).1]
  · obtain ⟨himg, hv⟩ := image_execCommand E f hs cmd
    have hentry : entryOf (execCommand E f s cmd) = entryOf s := by
      funext nlist
      rw [entryOf, entryOf, himg, hv]
    by_cases hinfo : ∃ info, cmd = .dyldInfo info
    · obtain ⟨info, rfl⟩ := hinfo
      exact symtab_dyldInfo_comm s symtab info
    · have hregs := execCommand_withRegs (E := E) (f := f) s
        (((mainSymbols f symtab).getLast?.map (entryOf s)).or s.entryPoint) s.bList
        (fun symtab' he => hcmds symtab' (he ▸ hcmd)) fun info he => hinfo ⟨info, he⟩
      rw [execCommand_symtab, execCommand_symtab, hregs.1, hentry, hregs.2.1, hregs.2.2]

/-- **A bind table** may come in front of any other commands once the segments that it refers to are
recorded. -/
theorem dyldInfo_past {info : DyldInfoCommand} (hcmds : ∀ info', .dyldInfo info' ∉ cmds)
    (hrecords : ∀ t : SegmentTable, c.segments.recs <+: t.recs →
      dyldInfoRecords E f t info = dyldInfoRecords E f c.segments info) :
    cmds.foldl (execCommand E f) (execCommand E f c (.dyldInfo info)) =
      execCommand E f (cmds.foldl (execCommand E f) c) (.dyldInfo info) := by
  refine foldl_past (P := fun s : MachContext => c.segments.recs <+: s.segments.recs)
    (fun s cmd _ hs => hs.trans (recs_execCommand E f s cmd)) (fun s cmd hcmd hs => ?_) List.prefix_rfl
  by_cases hsymtab : ∃ symtab, cmd = .symtab symtab
  · obtain ⟨symtab, rfl⟩ := hsymtab
    exact (symtab_dyldInfo_comm s symtab info).symm
  · have hregs := execCommand_withRegs (E := E) (f := f) s s.entryPoint
      (s.bList ++ dyldInfoRecords E f s.segments info) (fun symtab he => hsymtab ⟨symtab, he⟩)
      fun info' he => hcmds info' (he ▸ hcmd)
    rw [execCommand_dyldInfo, execCommand_dyldInfo, hregs.1, hregs.2.1, hregs.2.2, hrecords _ hs,
      hrecords _ (hs.trans (recs_execCommand E f s cmd))]

theorem dyldInfoRecords_congr {t t' : SegmentTable} {info : DyldInfoCommand} {n : ℕ}
    (hrows : ∀ row ∈ dyldInfoRows E f info, row.segment < n)
    (hrecs : ∀ i < n, t'.recs[i]? = t.recs[i]?) :
    dyldInfoRecords E f t' info = dyldInfoRecords E f t info := by
  rw [dyldInfoRecords_eq_rows, dyldInfoRecords_eq_rows]
  refine List.map_congr_left fun row hrow => ?_
  rw [BindRegs.record, ← bindAddressForSegmentOffset_eq_locate, BindRegs.record,
    ← bindAddressForSegmentOffset_eq_locate]
  unfold bindAddressForSegmentOffset
  split_ifs with hneg
  · rfl
  · have hlt := hrows row hrow
    rw [hrecs _ (by omega)]

/-! ## Chained fixups in front of others -/

/-- `s` with the counters of the walk `w`, over another memory and with another log. -/
def MachContext.withWalk (s w : MachContext) (m : Mem 64) (trace : List Event) : MachContext :=
  { s with
    mem := m
    trace := trace
    chainedRebaseCount := w.chainedRebaseCount
    chainedBindCount := w.chainedBindCount
    chainedUnresolvedBindCount := w.chainedUnresolvedBindCount }

/-- Other commands have led from `c` to `s`, and from `w`, where a walk has been taken first, to `s'`.
They write to the bytes of `K` only. -/
structure WalkedFirst (K : Set Addr) (c w s s' : MachContext) : Prop where
  eq_withWalk : s' = s.withWalk w s'.mem s'.trace
  imgAddr_eq : s.imgAddr = c.imgAddr
  vAddr_eq : s.vAddr = c.vAddr
  rebaseCount_eq : s.chainedRebaseCount = c.chainedRebaseCount
  bindCount_eq : s.chainedBindCount = c.chainedBindCount
  unresolvedBindCount_eq : s.chainedUnresolvedBindCount = c.chainedUnresolvedBindCount
  inside : Set.EqOn s.mem s'.mem K
  outside : Set.EqOn s.mem c.mem (compl K)
  outside' : Set.EqOn s'.mem w.mem (compl K)

section

variable {segs : List SegmentCommand64} {c w s s' : MachContext}

theorem WalkedFirst.execSegment {seg : SegmentCommand64} (hseg : seg ∈ segs) (hi : c.imgAddr ≠ 0#64)
    (h : WalkedFirst (segmentBytes segs c.imgAddr c.vAddr) c w s s') :
    WalkedFirst (segmentBytes segs c.imgAddr c.vAddr) c w (execSegment E f s seg)
      (execSegment E f s' seg) := by
  obtain ⟨heq, himg, hv, hrebase, hbind, hunresolved, hin, hout, hout'⟩ := h
  generalize s'.mem = m at heq hin hout'
  generalize s'.trace = trace at heq
  subst heq
  have hs : s.imgAddr ≠ 0#64 := by rwa [himg]
  have hs' : (s.withWalk w m trace).imgAddr ≠ 0#64 := hs
  unfold Maloader.execSegment
  rw [ensureImageMapping64_of_ne E f hs, ensureImageMapping64_of_ne E f hs']
  by_cases hcopy : seg.CopiedIn s
  · have hcopy' : seg.CopiedIn (s.withWalk w m trace) := hcopy
    have hwrite : ∀ x, InRange (s.imgAddr + (seg.vmaddr - s.vAddr)) seg.filesize.toNat x →
        x ∈ segmentBytes segs c.imgAddr c.vAddr := fun x hx => by
      rw [himg, hv] at hx
      exact ⟨seg, hseg, hcopy.1, hx⟩
    rw [copySegment_of_copied f hcopy, copySegment_of_copied f hcopy']
    refine ⟨rfl, himg, hv, hrebase, hbind, hunresolved, ?_, ?_, ?_⟩ <;>
      dsimp only [memcpy, MachContext.withWalk]
    · exact eqOn_overlay hin fun _ _ _ => rfl
    · exact (eqOn_overlay_compl s.mem _ hwrite).trans hout
    · exact (eqOn_overlay_compl m _ hwrite).trans hout'
  · have hcopy' : ¬ seg.CopiedIn (s.withWalk w m trace) := hcopy
    rw [copySegment_of_not_copied f hcopy, copySegment_of_not_copied f hcopy']
    exact ⟨rfl, himg, hv, hrebase, hbind, hunresolved, hin, hout, hout'⟩

theorem WalkedFirst.foldl (hi : c.imgAddr ≠ 0#64) {cmds : List Command}
    (hcmds : ∀ fixups, .dyldChainedFixups fixups ∉ cmds) (hsegs : ∀ seg ∈ segmentsOf cmds, seg ∈ segs)
    (h : WalkedFirst (segmentBytes segs c.imgAddr c.vAddr) c w s s') :
    WalkedFirst (segmentBytes segs c.imgAddr c.vAddr) c w (cmds.foldl (execCommand E f) s)
      (cmds.foldl (execCommand E f) s') := by
  refine List.foldl_rel h fun cmd hcmd s s' h => ?_
  cases cmd with
  | segment64 seg =>
    exact h.execSegment (hsegs seg (List.mem_filterMap.mpr ⟨_, hcmd, rfl⟩)) hi
  | dyldChainedFixups fixups => exact absurd hcmd (hcmds fixups)
  | other => exact h
  | _ =>
    obtain ⟨heq, himg, hv, hrebase, hbind, hunresolved, hin, hout, hout'⟩ := h
    generalize s'.mem = m at heq hin hout'
    generalize s'.trace = trace at heq
    subst heq
    simp only [execCommand, loadDyldInfo_eq, loadSymtab_eq, dylibListRetriever]
    exact ⟨rfl, himg, hv, hrebase, hbind, hunresolved, hin, hout, hout'⟩

/-- **Chained fixups** may come in front of any other commands, once the image is mapped and the
segments that they refer to are recorded, if their entries are clear of the segments that follow. -/
theorem chained_past {dataoff datasize : ℕ} (hi : c.imgAddr ≠ 0#64) {cmds : List Command}
    (hcmds : ∀ fixups, .dyldChainedFixups fixups ∉ cmds) (hsegs : ∀ seg ∈ segmentsOf cmds, seg ∈ segs)
    (hmapped : ∀ i < chainedSegCount f dataoff, (chainedStarts f dataoff datasize i).isSome →
      (c.segments.Mapped i ↔ (cmds.foldl (execCommand E f) c).segments.Mapped i))
    (hF : FixupsIn (compl (segmentBytes segs c.imgAddr c.vAddr))
      (walkEvents E f (cmds.foldl (execCommand E f) c) dataoff datasize)) :
    (cmds.foldl (execCommand E f) (dumpChainedFixups E f c dataoff datasize)).silent =
      (dumpChainedFixups E f (cmds.foldl (execCommand E f) c) dataoff datasize).silent := by
  have hplain : WalkedFirst (segmentBytes segs c.imgAddr c.vAddr) c c c c :=
    ⟨rfl, rfl, rfl, rfl, rfl, rfl, fun _ _ => rfl, fun _ _ => rfl, fun _ _ => rfl⟩
  have hd := hplain.foldl (E := E) (f := f) hi hcmds hsegs
  obtain ⟨m, hw, hin, hout⟩ := dumpChainedFixups_frame (cmds.foldl (execCommand E f) c) c
    SamePayload.rfl hd.imgAddr_eq.symm hmapped hd.unresolvedBindCount_eq.symm hd.outside hF
  have hkeep := eqOn_dumpChainedFixups hF
  rw [compl_compl] at hout hkeep
  have hself : dumpChainedFixups E f (cmds.foldl (execCommand E f) c) dataoff datasize =
      (cmds.foldl (execCommand E f) c).withImage
        (dumpChainedFixups E f (cmds.foldl (execCommand E f) c) dataoff datasize) :=
    dumpChainedFixups_withImage E f _ _ dataoff datasize
  obtain ⟨himg, hsegments⟩ := atImage_dumpChainedFixups E f (cmds.foldl (execCommand E f) c) dataoff
    datasize
  generalize walkEvents E f (cmds.foldl (execCommand E f) c) dataoff datasize = events at hw
  generalize dumpChainedFixups E f (cmds.foldl (execCommand E f) c) dataoff datasize = e at *
  have hw' : dumpChainedFixups E f c dataoff datasize = c.withWalk e m (c.trace ++ events) := by
    rw [hw]
    unfold MachContext.withTrace MachContext.withSegments MachContext.withImage MachContext.withMem
      MachContext.withWalk
    rw [himg, hd.imgAddr_eq]
  rw [hw']
  have hfirst : WalkedFirst (segmentBytes segs c.imgAddr c.vAddr) c
      (c.withWalk e m (c.trace ++ events)) c (c.withWalk e m (c.trace ++ events)) :=
    ⟨rfl, rfl, rfl, rfl, rfl, rfl, fun x hx => (hout hx).symm, fun _ _ => rfl, fun _ _ => rfl⟩
  have hlast := hfirst.foldl (E := E) (f := f) hi hcmds hsegs
  obtain ⟨heq, -, -, -, -, -, hin', -, hout'⟩ := hlast
  generalize cmds.foldl (execCommand E f) (c.withWalk e m (c.trace ++ events)) = d' at *
  generalize cmds.foldl (execCommand E f) c = d at *
  have hmem : d'.mem = e.mem := by
    funext x
    by_cases hx : x ∈ segmentBytes segs c.imgAddr c.vAddr
    · exact (hin' hx).symm.trans (hkeep hx).symm
    · exact (hout' hx).trans (hin hx).symm
  rw [heq, hself]
  unfold MachContext.silent MachContext.withWalk MachContext.withImage
  rw [hmem, himg, hsegments]

end

/-! ## The log -/

theorem silent_ensureImageMapping64 (c : MachContext) :
    (ensureImageMapping64 E f c.silent).2 = (ensureImageMapping64 E f c).2.silent := by
  by_cases himg : c.imgAddr = 0#64
  · by_cases hhull : (hull f).1 = uint64Max ∨ (hull f).2 ≤ (hull f).1
    · simp [ensureImageMapping64, MachContext.silent, himg, hhull]
    · cases hmap : E.mmap c.mmaps (hull f).1 (alignMemory ((hull f).2 - (hull f).1) 0x1000#64) <;>
        simp [ensureImageMapping64, MachContext.silent, himg, hhull, hmap]
  · simp [ensureImageMapping64, MachContext.silent, himg]

theorem silent_execSegment (c : MachContext) (seg : SegmentCommand64) :
    (execSegment E f c.silent seg).silent = (execSegment E f c seg).silent := by
  unfold execSegment
  rw [silent_ensureImageMapping64]
  generalize (ensureImageMapping64 E f c).2 = d
  have hcopy : (copySegment f d.silent seg).silent = (copySegment f d seg).silent := by
    by_cases hguard : seg.CopiedIn d
    · have hguard' : seg.CopiedIn d.silent := hguard
      rw [copySegment_of_copied f hguard, copySegment_of_copied f hguard']
      rfl
    · have hguard' : ¬ seg.CopiedIn d.silent := hguard
      rw [copySegment_of_not_copied f hguard, copySegment_of_not_copied f hguard']
      rfl
  generalize copySegment f d.silent seg = e at hcopy
  generalize copySegment f d seg = e' at hcopy
  have hrecord : segmentRecord e seg = segmentRecord e' seg := by
    have hs : segmentRecord e.silent seg = segmentRecord e'.silent seg := by rw [hcopy]
    exact hs
  have hsegments : e.silent.segments = e'.silent.segments := by rw [hcopy]
  change e.segments = e'.segments at hsegments
  have hpush : (e.withSegments (e.segments.push (segmentRecord e seg))).silent =
      e.silent.withSegments (e.segments.push (segmentRecord e seg)) := rfl
  show (e.withSegments (e.segments.push (segmentRecord e seg))).silent = _
  rw [hpush, hcopy, hrecord, hsegments]
  rfl

/-- **No command reads the log.** -/
theorem silent_execCommand (c : MachContext) (cmd : Command) :
    (execCommand E f c.silent cmd).silent = (execCommand E f c cmd).silent := by
  cases cmd with
  | segment64 seg => exact silent_execSegment c seg
  | dyldInfo info =>
    simp only [execCommand_dyldInfo]
    rfl
  | symtab symtab =>
    simp only [execCommand_symtab]
    rfl
  | loadDylib name => rfl
  | dyldChainedFixups fixups =>
    rw [execCommand, execCommand, dumpChainedFixups_silent E f c]
    rfl
  | other => rfl

theorem silent_foldl_execCommand {c c' : MachContext} (h : c.silent = c'.silent) (cmds : List Command) :
    (cmds.foldl (execCommand E f) c).silent = (cmds.foldl (execCommand E f) c').silent := by
  refine List.foldl_rel (r := fun c c' : MachContext => c.silent = c'.silent) h fun cmd _ c c' h => ?_
  rw [← silent_execCommand, h, silent_execCommand]

/-! ## Executables with one command moved -/

/-- `y` is `x` with the command `b` in front of the commands `mid`, which are of other kinds. -/
structure CommandMoved (x y : Executable) (pre mid post : List CommandBytes) (b : CommandBytes) :
    Prop where
  header_eq : y.header = x.header
  rest_eq : y.rest = x.rest
  cmds_eq : x.cmds = pre ++ (mid ++ b :: post)
  cmds_eq' : y.cmds = pre ++ b :: (mid ++ post)
  kind_mem : b.kind = .symtab ∨ b.kind = .dyldInfo ∨ b.kind = .dyldChainedFixups
  mid_kind : ∀ b' ∈ mid, b'.kind ≠ b.kind

theorem CommandMoved.reordered {x y : Executable} {pre mid post : List CommandBytes} {b : CommandBytes}
    (h : CommandMoved x y pre mid post b) : x.Reordered y where
  header_eq := h.header_eq
  rest_eq := h.rest_eq
  perm := by
    rw [h.cmds_eq, h.cmds_eq']
    exact List.perm_middle.append_left pre

/-- The command refers to none but the first `n` segments: the rows of a bind table name no others,
and a payload gives starts for no others. -/
def RefersBefore (E : Env) (f : File) (n : ℕ) : Command → Prop
  | .dyldInfo info => ∀ row ∈ dyldInfoRows E f info, row.segment < n
  | .dyldChainedFixups fixups => ∀ i < chainedSegCount f fixups.dataoff,
      (chainedStarts f fixups.dataoff fixups.datasize i).isSome → i < n
  | _ => True

instance (n : ℕ) : (cmd : Command) → Decidable (RefersBefore E f n cmd)
  | .dyldInfo info => inferInstanceAs (Decidable (∀ row ∈ dyldInfoRows E f info, row.segment < n))
  | .dyldChainedFixups fixups => inferInstanceAs (Decidable (∀ i < chainedSegCount f fixups.dataoff,
      (chainedStarts f fixups.dataoff fixups.datasize i).isSome → i < n))
  | .segment64 _ | .symtab _ | .loadDylib _ | .other => inferInstanceAs (Decidable True)

/-- The chain entries in a log that are in one of the first `n` segments. -/
def fixupsBefore (n : ℕ) (trace : List Event) : List Event :=
  trace.filter fun ev => match ev with
    | .fixup i _ _ => i < n
    | _ => false

theorem command_ne_of_kind (b : CommandBytes) :
    (b.kind ≠ .segment64 → ∀ seg, b.command ≠ .segment64 seg) ∧
      (b.kind ≠ .dyldInfo → ∀ info, b.command ≠ .dyldInfo info) ∧
      (b.kind ≠ .symtab → ∀ symtab, b.command ≠ .symtab symtab) ∧
      (b.kind ≠ .dyldChainedFixups → ∀ fixups, b.command ≠ .dyldChainedFixups fixups) := by
  unfold CommandBytes.kind CommandBytes.command commandAt kindOf
  cases commandKind (loadCommandAt b.bytes 0).cmd <;> simp

theorem command_of_kind (b : CommandBytes) :
    (b.kind = .symtab → ∃ symtab, b.command = .symtab symtab) ∧
      (b.kind = .dyldInfo → ∃ info, b.command = .dyldInfo info) ∧
      (b.kind = .dyldChainedFixups → ∃ fixups, b.command = .dyldChainedFixups fixups) := by
  unfold CommandBytes.kind CommandBytes.command commandAt kindOf
  cases commandKind (loadCommandAt b.bytes 0).cmd <;> simp

section Moved

variable {x y : Executable} {pre mid post : List CommandBytes} {b : CommandBytes}

theorem CommandMoved.command_ne_segment64 (h : CommandMoved x y pre mid post b) :
    ¬ ∃ seg, b.command = .segment64 seg := by
  rintro ⟨seg, he⟩
  have hkind : b.kind ≠ .segment64 := by
    rcases h.kind_mem with hk | hk | hk <;> rw [hk] <;> decide
  exact (command_ne_of_kind b).1 hkind seg he

theorem CommandMoved.segmentsOf_eq (h : CommandMoved x y pre mid post b) :
    segmentsOf (commands y.file) = segmentsOf (commands x.file) := by
  have happend : ∀ l l' : List Command, segmentsOf (l ++ l') = segmentsOf l ++ segmentsOf l' :=
    fun l l' => List.filterMap_append
  rw [x.commands_file, y.commands_file, h.cmds_eq, h.cmds_eq']
  simp only [List.map_append, List.map_cons, happend, segmentsOf_cons_of_ne h.command_ne_segment64]

theorem CommandMoved.notMem_mid (h : CommandMoved x y pre mid post b) :
    (b.kind = .symtab → ∀ symtab, .symtab symtab ∉ mid.map CommandBytes.command) ∧
      (b.kind = .dyldInfo → ∀ info, .dyldInfo info ∉ mid.map CommandBytes.command) ∧
      (b.kind = .dyldChainedFixups → ∀ fixups,
        .dyldChainedFixups fixups ∉ mid.map CommandBytes.command) := by
  refine ⟨fun hk symtab hmem => ?_, fun hk info hmem => ?_, fun hk fixups hmem => ?_⟩ <;>
    obtain ⟨b', hb', he⟩ := List.mem_map.mp hmem <;> have hne := hk ▸ h.mid_kind b' hb'
  · exact (command_ne_of_kind b').2.2.1 hne symtab he
  · exact (command_ne_of_kind b').2.1 hne info he
  · exact (command_ne_of_kind b').2.2.2 hne fixups he

theorem CommandMoved.tableBehind (h : CommandMoved x y pre mid post b) (htables : x.TablesBehind) :
    TableBehind x.commandsEnd b.command := by
  refine htables b ?_
  rw [h.cmds_eq]
  exact List.mem_append_right _ (List.mem_append_right _ List.mem_cons_self)

theorem CommandMoved.past_chained (h : CommandMoved x y pre mid post b) (htables : x.TablesBehind)
    (hk : b.kind = .dyldChainedFixups) {fixups : LinkeditDataCommand}
    (hb : b.command = .dyldChainedFixups fixups) {c : MachContext} (hi : c.imgAddr ≠ 0#64) {k : ℕ}
    (hlookup : ∀ t : SegmentTable, c.segments.recs <+: t.recs → ∀ i < k,
      t.recs[i]? = c.segments.recs[i]?)
    (hrefers : RefersBefore E x.file k b.command)
    (hapart : FixupsIn
      (compl (segmentBytes (segmentsOf (mid.map CommandBytes.command)) c.imgAddr c.vAddr))
      (fixupsBefore k (execCommand E y.file
        ((mid.map CommandBytes.command).foldl (execCommand E y.file) c) b.command).trace)) :
    ((mid.map CommandBytes.command).foldl (execCommand E y.file)
        (execCommand E y.file c b.command)).silent =
      (execCommand E y.file ((mid.map CommandBytes.command).foldl (execCommand E y.file) c)
        b.command).silent := by
  have htable := h.tableBehind htables
  rw [hb] at htable hrefers hapart ⊢
  have hpayload : SamePayload x.file y.file fixups.dataoff fixups.datasize :=
    samePayload_of_drop h.reordered.drop_commandsEnd htable _
  have hbefore : ∀ i < chainedSegCount y.file fixups.dataoff,
      (chainedStarts y.file fixups.dataoff fixups.datasize i).isSome → i < k := by
    intro i hcount hstarts
    rw [← hpayload.segCount] at hcount
    rw [← hpayload.starts] at hstarts
    exact hrefers i hcount hstarts
  refine chained_past hi (h.notMem_mid.2.2 hk) (fun seg hseg => hseg)
    (fun i hcount hstarts => ?_) fun ev hev => ?_
  · rw [SegmentTable.Mapped, SegmentTable.Mapped, hlookup _ (recs_foldl_execCommand c _) i
      (hbefore i hcount hstarts)]
  · cases ev with
    | fixup i loc raw =>
      obtain ⟨hcount, hstarts⟩ := chainedStarts_of_fixup E y.file _ hev
      refine hapart (.fixup i loc raw) (List.mem_filter.mpr ⟨?_, ?_⟩)
      · rw [execCommand, trace_eq_walkEvents]
        exact List.mem_append_right _ hev
      · exact decide_eq_true (hbefore i hcount hstarts)
    | _ => trivial

/-- **The moved command** does in front of `mid` what it does behind. -/
theorem CommandMoved.past (h : CommandMoved x y pre mid post b) (htables : x.TablesBehind)
    {c : MachContext} (hi : c.imgAddr ≠ 0#64)
    (hlength : c.segments.recs.length =
      min machLoaderMaxSegments (segmentsOf (pre.map CommandBytes.command)).length)
    (hrefers : RefersBefore E x.file (segmentsOf (pre.map CommandBytes.command)).length b.command)
    (hapart : FixupsIn
      (compl (segmentBytes (segmentsOf (mid.map CommandBytes.command)) c.imgAddr c.vAddr))
      (fixupsBefore (segmentsOf (pre.map CommandBytes.command)).length (execCommand E y.file
        ((mid.map CommandBytes.command).foldl (execCommand E y.file) c) b.command).trace)) :
    ((mid.map CommandBytes.command).foldl (execCommand E y.file)
        (execCommand E y.file c b.command)).silent =
      (execCommand E y.file ((mid.map CommandBytes.command).foldl (execCommand E y.file) c)
        b.command).silent := by
  have hlookup : ∀ t : SegmentTable, c.segments.recs <+: t.recs →
      ∀ i < (segmentsOf (pre.map CommandBytes.command)).length, t.recs[i]? = c.segments.recs[i]? :=
    fun t ht i hi => getElem?_recs_of_prefix ht hlength hi
  rcases h.kind_mem with hk | hk | hk
  · obtain ⟨symtab, hb⟩ := (command_of_kind b).1 hk
    rw [hb, symtab_past (h.notMem_mid.1 hk) hi]
  · obtain ⟨info, hb⟩ := (command_of_kind b).2.1 hk
    have htable := h.tableBehind htables
    rw [hb] at htable hrefers ⊢
    have hrecords := fun t =>
      dyldInfoRecords_eq_of_drop h.reordered.drop_commandsEnd E t htable
    rw [dyldInfo_past (h.notMem_mid.2.1 hk) fun t ht => ?_]
    rw [← hrecords, ← hrecords]
    exact dyldInfoRecords_congr hrefers (hlookup t ht)
  · obtain ⟨fixups, hb⟩ := (command_of_kind b).2.2 hk
    exact h.past_chained htables hk hb hi hlookup hrefers hapart

/-- **Moving a command in front of segments it does not refer to** changes nothing but the copies of
the commands themselves. The image is mapped by a segment that stays in front; the tables lie behind the
commands; and the chain entries are clear of the copies of moved commands, those in the first segments
also of the segments that the command is moved over. -/
theorem loader64_moved (E : Env) (m : Mem 64) (h : CommandMoved x y pre mid post b)
    (htables : x.TablesBehind)
    (hgrant : (ensureImageMapping64 E x.file (MachContext.zero m)).2.imgAddr ≠ 0#64)
    (hpre : segmentsOf (pre.map CommandBytes.command) ≠ [])
    (hrefers : RefersBefore E x.file (segmentsOf (pre.map CommandBytes.command)).length b.command)
    (hclear : FixupsIn (compl (movedBytes x y (loader64 E x.file (MachContext.zero m)).2))
      (loader64 E x.file (MachContext.zero m)).2.trace)
    (hapart : FixupsIn (compl (segmentBytes (segmentsOf (mid.map CommandBytes.command))
        (loader64 E x.file (MachContext.zero m)).2.imgAddr
        (loader64 E x.file (MachContext.zero m)).2.vAddr))
      (fixupsBefore (segmentsOf (pre.map CommandBytes.command)).length
        (loader64 E x.file (MachContext.zero m)).2.trace)) :
    SameResult (movedBytes x y (loader64 E x.file (MachContext.zero m)).2)
      (loader64 E x.file (MachContext.zero m)).2 (loader64 E y.file (MachContext.zero m)).2 := by
  refine sameResult_of_reordered E m h.reordered h.segmentsOf_eq htables hclear fun hexec hrun => ?_
  have hx : commands x.file = pre.map CommandBytes.command ++
      (mid.map CommandBytes.command ++ b.command :: post.map CommandBytes.command) := by
    rw [x.commands_file, h.cmds_eq]
    simp only [List.map_append, List.map_cons]
  have hy : commands y.file = pre.map CommandBytes.command ++
      b.command :: (mid.map CommandBytes.command ++ post.map CommandBytes.command) := by
    rw [y.commands_file, h.cmds_eq']
    simp only [List.map_append, List.map_cons]
  have hgrant' : (ensureImageMapping64 E y.file (MachContext.zero m)).2.imgAddr ≠ 0#64 := by
    rw [ensureImageMapping64_congr (hull_congr h.segmentsOf_eq)]
    exact hgrant
  have hi := imgAddr_ne_of_segment hgrant' hpre (c := MachContext.zero m) rfl rfl
  have hlength := length_recs_foldl (E := E) (f := y.file) (MachContext.zero m)
    (pre.map CommandBytes.command)
  have hfinal := congrArg Prod.snd (loader64_eq E x.file hexec x.wellSized_file (MachContext.zero m))
  -- the run over the second file, with the commands in the order of the first, logs the same
  have hsame := hrun.eq_withMem
  generalize (commands x.file).foldl (execCommand E x.file) (MachContext.zero m) = final at hfinal hsame
  rw [hx, List.foldl_append, List.foldl_append, List.foldl_cons] at hsame
  rw [hx, hy, List.foldl_append, List.foldl_append, List.foldl_cons, List.foldl_append,
    List.foldl_cons, List.foldl_append]
  generalize (pre.map CommandBytes.command).foldl (execCommand E y.file) (MachContext.zero m) = c at *
  have himage := image_foldl_execCommand E y.file hi
    (mid.map CommandBytes.command ++ b.command :: post.map CommandBytes.command)
  rw [List.foldl_append, List.foldl_cons, hsame] at himage
  have hlog := trace_foldl_execCommand E y.file (execCommand E y.file
    ((mid.map CommandBytes.command).foldl (execCommand E y.file) c) b.command)
    (post.map CommandBytes.command)
  rw [hsame] at hlog
  refine congrArg (MachContext.atPtr · 0) (silent_foldl_execCommand ?_ _)
  refine (h.past htables hi ?_ hrefers fun ev hev => ?_).symm
  · rw [hlength]
    exact congrArg (min machLoaderMaxSegments) (Nat.zero_add _)
  · obtain ⟨hev, hbefore⟩ := List.mem_filter.mp hev
    have hclear' := hapart ev (List.mem_filter.mpr ⟨by rw [hfinal]; exact hlog.subset hev, hbefore⟩)
    rw [hfinal] at hclear'
    rw [← himage.1, ← himage.2]
    exact hclear'

end Moved

/-- The fixups moved in front of `__LINKEDIT`. -/
def sampleMoved : Executable :=
  sampleExecutable [sampleText, sampleData, sampleChained, sampleLinkedit, sampleSymtab, sampleInfo] rfl

/-- Fixups of `__DATA` may stand in front of `__LINKEDIT`. -/
theorem loader64_moved_sample :
    SameResult (movedBytes sampleOrder sampleMoved (sampleRun sampleOrder)) (sampleRun sampleOrder)
      (sampleRun sampleMoved) := by
  have hmoved : CommandMoved sampleOrder sampleMoved [sampleText, sampleData] [sampleLinkedit]
      [sampleSymtab, sampleInfo] sampleChained :=
    ⟨rfl, rfl, rfl, rfl, by decide +kernel, by decide +kernel⟩
  exact loader64_moved _ _ hmoved (by decide +kernel) (by decide +kernel) (by decide +kernel)
    (by decide +kernel) (by decide +kernel) (by decide +kernel)

/-- The symbols in front of all segments. -/
def sampleSymtabFirst : Executable :=
  sampleExecutable [sampleSymtab, sampleText, sampleData, sampleLinkedit, sampleChained, sampleInfo] rfl

/-- The binds in front of the segment that they refer to. -/
def sampleInfoEarly : Executable :=
  sampleExecutable [sampleText, sampleInfo, sampleData, sampleLinkedit, sampleChained, sampleSymtab] rfl

/-- The fixups in front of their segment. -/
def sampleChainedEarly : Executable :=
  sampleExecutable [sampleText, sampleChained, sampleData, sampleLinkedit, sampleSymtab, sampleInfo] rfl

/-- **In front of segments they refer to**, the commands do not find them: the entry point is not moved
with the image, the bind has no address, and the word is not rebased. -/
theorem results_moved :
    CommandMoved sampleOrder sampleSymtabFirst [] [sampleText, sampleData, sampleLinkedit, sampleChained]
        [sampleInfo] sampleSymtab ∧
      CommandMoved sampleOrder sampleInfoEarly [sampleText]
        [sampleData, sampleLinkedit, sampleChained, sampleSymtab] [] sampleInfo ∧
      CommandMoved sampleOrder sampleChainedEarly [sampleText] [sampleData, sampleLinkedit]
        [sampleSymtab, sampleInfo] sampleChained ∧
      (machHeader64 sampleOrder.file).filetype = mhExecute ∧ sampleOrder.TablesBehind ∧
      (sampleRun sampleOrder).entryPoint = some 0x7010#64 ∧
      (sampleRun sampleSymtabFirst).entryPoint = some 0x4010#64 ∧
      (sampleRun sampleOrder).bList = [⟨some (lit "_f"), 0x8008#64⟩] ∧
      (sampleRun sampleInfoEarly).bList = [⟨some (lit "_f"), 0#64⟩] ∧
      load64 (sampleRun sampleOrder).mem 0x8000#64 = 0x7010#64 ∧
      load64 (sampleRun sampleChainedEarly).mem 0x8000#64 = 0x10#64 :=
  ⟨⟨rfl, rfl, rfl, rfl, by decide +kernel, by decide +kernel⟩,
    ⟨rfl, rfl, rfl, rfl, by decide +kernel, by decide +kernel⟩,
    ⟨rfl, rfl, rfl, rfl, by decide +kernel, by decide +kernel⟩, by decide +kernel⟩

end Maloader
