import Maloader.Lib.Loops
import Maloader.Bind.Rows
import Maloader.Chained.Bounds
import Maloader.Host.Resolve
import Maloader.Segment.Layout

/-!
# The bounds of a run

Loading a file and binding it, for any file and up to any point: which fixups there are, which
segment each names, and when all stores lie in the segments named.

* `runTurns`, `runTurns_history`: the turns of a run, and what they keep; `bindRowsAt`,
  **`bList_loader64`**: the bind list of a run, row by row.
* `CommandHasRoom`, `StepHasRoom`, **`loaderStep_held`**, `chainsHeld_loader64`: the chained fixups of a run.
* `BindReached`, `trace_of_bindReached`: binding, record by record.
* `NamesPlace`, **`fixups_inside`**: where all steps have room, all stores are in bounds.
* `oneRowFile`: a file with one row in its bind table.
-/

namespace Maloader

open ByteLib WalkLib ActionLib

variable (E : Env) (f : File) (H : Host)

/-! ## The bind list -/

/-- The turns of a run of the loader; none if the file is not an executable. -/
def runTurns (m : Mem 64) : List MachContext :=
  if (machHeader64 f).filetype = mhExecute then loaderTurns E f (MachContext.zero m) else []

variable {E f} in
/-- **What every turn of a run keeps** of its context and of the turns before it. -/
theorem runTurns_history {m : Mem 64} {P : List MachContext → MachContext → Prop}
    (hstart : P [] ((MachContext.zero m).atPtr machHeader64Size))
    (hstep : ∀ l, ∀ b ∈ runTurns E f m, P l b → P (l ++ [b]) (loaderStep E f b))
    {before after : List MachContext} {c : MachContext}
    (h : runTurns E f m = before ++ c :: after) : P before c := by
  unfold runTurns loaderTurns at hstep h
  split_ifs at hstep h
  · obtain ⟨hlt, hbefore, hc⟩ := iterate_split h
    have hreach := iterate_history hstart hstep hlt.le
    rwa [← hbefore, ← hc] at hreach
  · simp at h

/-- The rows that a turn decodes. -/
def bindRowsAt (c : MachContext) : List BindRegs :=
  match commandAt f c.ptr with
  | .dyldInfo info => dyldInfoRows E f info
  | _ => []

theorem bList_loaderStep (c : MachContext) :
    (loaderStep E f c).bList = c.bList ++ (bindRowsAt E f c).map (BindRegs.record c.segments) := by
  rw [loaderStep_advance, bList_atPtr, bindRowsAt]
  cases commandAt f c.ptr with
  | dyldInfo info => rw [execCommand, loadDyldInfo_eq, dyldInfoRecords_eq_rows]
  | segment64 seg =>
    have hload : execSegment E f c seg = c.withLoad (execSegment E f c seg) :=
      execSegment_withLoad E f c c seg
    rw [execCommand, hload, List.map_nil, List.append_nil]
    rfl
  | symtab symtab => rw [execCommand, loadSymtab_eq, List.map_nil, List.append_nil]
  | dyldChainedFixups fixups =>
    have himage : dumpChainedFixups E f c fixups.dataoff fixups.datasize =
        c.withImage (dumpChainedFixups E f c fixups.dataoff fixups.datasize) :=
      dumpChainedFixups_withImage E f c c fixups.dataoff fixups.datasize
    rw [execCommand, himage, List.map_nil, List.append_nil]
    rfl
  | loadDylib name =>
    rw [List.map_nil, List.append_nil]
    rfl
  | other => rw [execCommand, List.map_nil, List.append_nil]

/-- **The bind list of a run** has the records of the rows that its turns decode. -/
theorem bList_loader64 (m : Mem 64) : (loader64 E f (MachContext.zero m)).2.bList =
    (runTurns E f m).flatMap fun c => (bindRowsAt E f c).map (BindRegs.record c.segments) := by
  unfold runTurns
  split_ifs with hexec
  · have hrun := iterate_append (g := MachContext.bList) (bList_loaderStep E f)
      ((MachContext.zero m).atPtr machHeader64Size) (machHeader64 f).ncmds.toNat
    have hzero : (MachContext.zero m).bList = [] := rfl
    rw [bList_atPtr, hzero, List.nil_append] at hrun
    rwa [loader64_eq_iterate E f hexec]
  · rw [loader64, if_pos hexec]
    rfl

/-! ## Chained fixups -/

/-- A row names a segment, if that is recorded and mapped, that has room at the row's offset. -/
def RowHasRoom (t : SegmentTable) (row : BindRegs) : Prop :=
  0 ≤ row.segment → t.RoomAt row.segment.toNat fun _ => row.offset

instance (t : SegmentTable) (row : BindRegs) : Decidable (RowHasRoom t row) := by
  unfold RowHasRoom; infer_instance

/-- The chains of a command begin in their segments, and no link leads out of them. -/
def CommandHasRoom (c : MachContext) : Command → Prop
  | .dyldChainedFixups fixups => chainedFixupsHeaderSize ≤ fixups.datasize →
    StartsHaveRoom f c.segments c.imgAddr fixups.dataoff fixups.datasize ∧
      LinksHaveRoom E f c fixups.dataoff fixups.datasize
  | _ => True

instance instDecidableCommandHasRoom (c : MachContext) :
    (cmd : Command) → Decidable (CommandHasRoom E f c cmd)
  | .dyldChainedFixups fixups => inferInstanceAs (Decidable (chainedFixupsHeaderSize ≤ fixups.datasize →
      StartsHaveRoom f c.segments c.imgAddr fixups.dataoff fixups.datasize ∧
        LinksHaveRoom E f c fixups.dataoff fixups.datasize))
  | .segment64 _ | .dyldInfo _ | .symtab _ | .loadDylib _ | .other =>
    inferInstanceAs (Decidable True)

/-- What the code leaves unchecked in a turn from `c`: rows point into their segments, chains begin in
theirs, and no link that is followed leads out. -/
structure StepHasRoom (c : MachContext) : Prop where
  rows : ∀ row ∈ bindRowsAt E f c, RowHasRoom c.segments row
  chains : CommandHasRoom E f c (commandAt f c.ptr)

instance instDecidableStepHasRoom (c : MachContext) : Decidable (StepHasRoom E f c) :=
  decidable_of_iff ((∀ row ∈ bindRowsAt E f c, RowHasRoom c.segments row) ∧
      CommandHasRoom E f c (commandAt f c.ptr))
    ⟨fun ⟨h1, h2⟩ => ⟨h1, h2⟩, fun h => ⟨h.1, h.2⟩⟩

theorem recs_loaderStep (c : MachContext) :
    c.segments.recs <+: (loaderStep E f c).segments.recs := by
  rw [loaderStep_advance, segments_atPtr]
  exact recs_execCommand E f c (commandAt f c.ptr)

/-- The chained fixups of a context are in bounds, and what is stored is stored at them. -/
def ChainsHeld (c : MachContext) : Prop := FixupsHeld c.segments c.trace ∧ StoresAtFixups c.trace

variable {E f}

/-- **One turn** keeps the chained fixups in bounds. -/
theorem loaderStep_held {c : MachContext} (hs : StepHasRoom E f c) (hc : ChainsHeld c) :
    ChainsHeld (loaderStep E f c) := by
  have htrace : (loaderStep E f c).trace = (execCommand E f c (commandAt f c.ptr)).trace := by
    rw [loaderStep_advance, trace_atPtr]
  obtain ⟨hheld, hstores⟩ := hc
  by_cases hcmd : ∃ fixups, commandAt f c.ptr = .dyldChainedFixups fixups
  · obtain ⟨fixups, hcmd⟩ := hcmd
    have hsegs : (loaderStep E f c).segments = c.segments := by
      rw [loaderStep_advance, segments_atPtr, hcmd]
      exact (atImage_dumpChainedFixups E f c _ _).2
    have hroom := hs.chains
    rw [hcmd] at hroom
    rw [ChainsHeld, htrace, hsegs, hcmd]
    exact ⟨dumpChainedFixups_held hroom hheld, dumpChainedFixups_stores hstores⟩
  · obtain ⟨copies, hcopies, hcopy⟩ := trace_execCommand E f c fun fixups he => hcmd ⟨fixups, he⟩
    rw [ChainsHeld, htrace, hcopies]
    constructor
    · intro i loc raw hev
      rcases List.mem_append.mp hev with hev | hev
      · exact (hheld i loc raw hev).mono (recs_loaderStep E f c)
      · exact absurd (hcopy _ hev) (by simp [Event.isCopy])
    · intro loc v hev
      rcases List.mem_append.mp hev with hev | hev
      · obtain ⟨i, raw, hfixup⟩ := hstores loc v hev
        exact ⟨i, raw, List.mem_append_left _ hfixup⟩
      · exact absurd (hcopy _ hev) (by simp [Event.isCopy])

theorem chainsHeld_loader64 {m : Mem 64} (hs : ∀ c ∈ runTurns E f m, StepHasRoom E f c) :
    ChainsHeld (loader64 E f (MachContext.zero m)).2 := by
  have hstart : ∀ p, ChainsHeld ((MachContext.zero m).atPtr p) := fun p =>
    ⟨fun _ _ _ hev => absurd hev List.not_mem_nil, fun _ _ hev => absurd hev List.not_mem_nil⟩
  unfold runTurns at hs
  split_ifs at hs with hexec
  · rw [loader64_eq_iterate E f hexec]
    exact iterate_end_invariant (fun c hc => loaderStep_held (hs c hc)) (hstart _)
  · rw [loader64, if_pos hexec]
    exact hstart 0

/-! ## Binding -/

/-- Binding comes from `c` to `d`, between two records or at its end. -/
def BindReached (c d : MachContext) : Prop :=
  ∃ ps, ps <+: bindPairs H c ∧
    ps.foldlM (bindPair H) { c with dList := boundLibraries c.dList } = some d

theorem bindReached_doBind {c d : MachContext} {n : ℤ} (h : doBind H c = some (n, d)) :
    BindReached H c d := by
  rw [doBind_eq_pairs] at h
  obtain ⟨d', hd, he⟩ := Option.map_eq_some_iff.mp h
  obtain rfl : d' = d := congrArg Prod.snd he
  exact ⟨_, List.prefix_rfl, hd⟩

theorem trace_of_bindReached {c d : MachContext} (h : BindReached H c d) {ev : Event}
    (hev : ev ∈ d.trace) :
    ev ∈ c.trace ∨ ∃ r ∈ c.bList, c.imgAddr < r.address ∧ ∃ v, ev = .store r.address v := by
  obtain ⟨ps, hps, hrun⟩ := h
  let P (d : MachContext) : Prop := d.imgAddr = c.imgAddr ∧ ∀ ev ∈ d.trace,
    ev ∈ c.trace ∨ ∃ r ∈ c.bList, c.imgAddr < r.address ∧ ∃ v, ev = .store r.address v
  have hstart : P { c with dList := boundLibraries c.dList } := ⟨rfl, fun ev hev => .inl hev⟩
  refine (foldlM_option_keeps (P := P) ?_ hstart hrun).2 ev hev
  rintro d p hp d' ⟨himg, htrace⟩ hstep
  obtain ⟨library, -, hmem⟩ := List.mem_flatMap.mp (hps.subset hp)
  obtain ⟨r, hr, rfl⟩ := List.mem_map.mp hmem
  rcases bindRecord_cases H hstep with rfl | ⟨ha, v, rfl⟩
  · exact ⟨himg, htrace⟩
  · refine ⟨himg, fun ev hev => ?_⟩
    rcases List.mem_append.mp hev with hev | hev
    · exact htrace ev hev
    · rw [himg] at ha
      exact .inr ⟨r, hr, ha, v, List.mem_singleton.mp hev⟩

/-! ## All stores -/

theorem locate_ne_zero {t : SegmentTable} {i : ℤ} {offset : BitVec 64} (h : t.locate i offset ≠ 0#64) :
    0 ≤ i ∧ ∃ info ∈ t.recs[i.toNat]?, info.mappedAddr ≠ 0#64 ∧
      t.locate i offset = info.mappedAddr + offset := by
  unfold SegmentTable.locate at h ⊢
  cases hrec : t.recs[i.toNat]? with
  | none => simp [hrec] at h
  | some info =>
    by_cases hi : 0 ≤ i ∧ info.mappedAddr ≠ 0#64
    · exact ⟨hi.1, info, rfl, hi.2, by simp [Option.filter, hi.1, hi.2]⟩
    · have hfilter : (some info).filter (fun seg => decide (0 ≤ i ∧ seg.mappedAddr ≠ 0#64)) = none := by
        rw [Option.filter_some, if_neg (by simpa using hi)]
      rw [hrec, hfilter] at h
      exact absurd rfl h

variable (E f)

/-- A fixup of the run names segment `i` and leads to `loc`: a chained fixup that the walk comes to, or
a row of a bind table whose location is not `NULL`. -/
def NamesPlace (m : Mem 64) (i : ℕ) (loc : Addr) : Prop :=
  (∃ raw, Event.fixup i loc raw ∈ (loader64 E f (MachContext.zero m)).2.trace) ∨
    ∃ c ∈ runTurns E f m, ∃ row ∈ bindRowsAt E f c, row.segment = i ∧ loc ≠ 0#64 ∧
      c.segments.locate row.segment row.offset = loc

/-- **Stores stay in the segments named.** In every run of the loader whose turns have room, every
fixup leads into the segment it names; and wherever binding gets to, every store so far was made at
the place of a fixup. -/
theorem fixups_inside {m : Mem 64} (hs : ∀ c ∈ runTurns E f m, StepHasRoom E f c) :
    let c := (loader64 E f (MachContext.zero m)).2
    (∀ i loc, NamesPlace E f m i loc → c.segments.Holds i loc) ∧
      ∀ d, BindReached H c d → ∀ loc v, Event.store loc v ∈ d.trace → ∃ i, NamesPlace E f m i loc := by
  intro c
  obtain ⟨hheld, hstores⟩ := chainsHeld_loader64 hs
  constructor
  · rintro i loc (⟨raw, hev⟩ | ⟨b, hb, row, hrow, hi, hne, hloc⟩)
    · exact hheld i loc raw hev
    · subst hloc
      obtain ⟨hnonneg, info, hinfo, hm, hplace⟩ := locate_ne_zero hne
      have hroom := (hs b hb).rows row hrow hnonneg info hinfo hm
      have hhere : b.segments.Holds i (b.segments.locate row.segment row.offset) := by
        rw [hi, Int.toNat_natCast] at hinfo
        refine ⟨info, hinfo, ?_⟩
        rw [hplace]
        exact (holds_add_iff info row.offset).mpr hroom
      refine hhere.mono ?_
      unfold runTurns at hb
      split_ifs at hb with hexec
      · have hend : c = (loaderStep E f)^[(machHeader64 f).ncmds.toNat]
            ((MachContext.zero m).atPtr machHeader64Size) :=
          congrArg Prod.snd (loader64_eq_iterate E f hexec _)
        rw [hend]
        exact iterate_rel_end (R := fun c d : MachContext => c.segments.recs <+: d.segments.recs)
          (fun _ => List.prefix_rfl) (fun _ _ _ => List.IsPrefix.trans) (recs_loaderStep E f) hb
      · exact absurd hb List.not_mem_nil
  · intro d hd loc v hev
    rcases trace_of_bindReached H hd hev with hev | ⟨r, hr, ha, v', he⟩
    · obtain ⟨i, raw, hfixup⟩ := hstores loc v hev
      exact ⟨i, .inl ⟨raw, hfixup⟩⟩
    · obtain ⟨rfl, -⟩ := Event.store.inj he
      have hr : r ∈ (loader64 E f (MachContext.zero m)).2.bList := hr
      rw [bList_loader64] at hr
      obtain ⟨b, hb, hr⟩ := List.mem_flatMap.mp hr
      obtain ⟨row, hrow, rfl⟩ := List.mem_map.mp hr
      have hne : (row.record b.segments).address ≠ 0#64 := fun he => by
        rw [he, BitVec.lt_def] at ha
        exact Nat.not_lt_zero _ ha
      obtain ⟨hnonneg, -⟩ := locate_ne_zero hne
      exact ⟨row.segment.toNat, .inr ⟨b, hb, row, hrow, (Int.toNat_of_nonneg hnonneg).symm, hne, rfl⟩⟩

/-- A bind table with one row, for `_sin` at `offset` in the first segment, a page. -/
def oneRowFile (offset : List Byte) : File :=
  encodeHeader 2 ++ encodeSegment64 (lit "__DATA") 0x4000 0x1000 0 0 ++
    encodeDyldInfo 152 (8 + offset.length) 0 0 ++ [0x40#8] ++ lit "_sin" ++ [0#8, 0x70#8] ++ offset ++
    [0x90#8]

theorem fixups_inside_oneRow :
    let c := (loader64 mmapEnv (oneRowFile [0x08#8]) (MachContext.zero fun _ => 0#8)).2
    ∀ d, BindReached smallHost c d → ∀ loc v, Event.store loc v ∈ d.trace →
      ∃ i, c.segments.Holds i loc := by
  intro c d hd loc v hev
  have hrun := fixups_inside mmapEnv (oneRowFile [0x08#8]) smallHost (m := fun _ => 0#8)
    (by decide +kernel)
  obtain ⟨i, hi⟩ := hrun.2 d hd loc v hev
  exact ⟨i, hrun.1 i loc hi⟩

/-- **A row behind the page**, at `0x2000`: the store is made at `0x9000`, where the segment is not. -/
theorem store_outside_oneRow :
    let c := (loader64 mmapEnv (oneRowFile [0x80#8, 0x40#8]) (MachContext.zero fun _ => 0#8)).2
    (c.segments.recs.map fun info => (info.mappedAddr, info.vmsize)) = [(0x7000#64, 0x1000#64)] ∧
      c.bList = [⟨some (lit "_sin"), 0x9000#64⟩] ∧
      (doBind smallHost c).map (fun r => r.2.trace) = some [.store 0x9000#64 3#64] ∧
      ¬ c.segments.Holds 0 0x9000#64 := by
  decide +kernel

end Maloader
