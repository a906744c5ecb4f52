import Maloader.Chained.Frame

/-!
# The tables of a payload

The payload of `LC_DYLD_CHAINED_FIXUPS` is a tree of tables. Some are compared with its end before
they are read, others are not.

* `TableEvent`, `chainedTableEvents`: the tables a walk reads and those it reports as reaching past
  the end.
* `SameTables`, **`dumpChainedFixups_congr`**: the walk depends on the tables read and the symbol
  names only, so none is missing.
* `TablesFit`, **`tables_inside_iff`**: exactly when every table is read if it lies inside the payload
  and reported if it does not.
-/

namespace Maloader

open ByteLib

/-! ## The reads -/

/-- A table, or an entry of one, that the walk comes to. -/
inductive TableEvent
  /-- The `n` bytes at `p` are read. -/
  | read (p n : ℕ)
  /-- The `n` bytes at `p` are said to be bad and skipped. -/
  | report (p n : ℕ)
  deriving DecidableEq

/-- The first `n` entries of `page_start`, of the starts at `p`. -/
def pageStartReads (p n : ℕ) : List TableEvent :=
  (List.range n).map fun page => .read (p + 22 + 2 * page) 2

/-- Where `seg_info_offset[i]` leads: `none` for a segment without chains. -/
def segInfoAt (f : File) (dataoff i : ℕ) : Option ℕ :=
  let starts := dataoff + (chainedFixupsHeader f dataoff).startsOffset
  let segInfoOff := (u32 f (starts + 4 + 4 * i)).toNat
  if segInfoOff = 0 then none else some (starts + segInfoOff)

/-- The chains of segment `i` are walked, its starts being `seg`. -/
def ChainsWalked (t : SegmentTable) (i : ℕ) (seg : ChainedStartsInSegment) : Prop :=
  seg.pointerFormat = malDyldChainedPtr64Offset ∧ t.Mapped i

instance (t : SegmentTable) (i : ℕ) (seg : ChainedStartsInSegment) :
    Decidable (ChainsWalked t i seg) := by
  unfold ChainsWalked; infer_instance

/-- The starts at `p`: the record, up to eight page starts that are printed, and all of them where
the chains are walked. -/
def startsReads (f : File) (t : SegmentTable) (i p : ℕ) : List TableEvent :=
  let seg := chainedStartsInSegment f p
  .read p chainedStartsInSegmentSize ::
    (pageStartReads p (min seg.pageCount.toNat 8) ++
      if ChainsWalked t i seg then pageStartReads p seg.pageCount.toNat else [])

/-- A turn of the loop over `seg_info_offset`. -/
def segmentTableEvents (f : File) (dataoff datasize : ℕ) (t : SegmentTable) (i : ℕ) :
    List TableEvent :=
  .read (dataoff + (chainedFixupsHeader f dataoff).startsOffset + 4 + 4 * i) 4 ::
    match segInfoAt f dataoff i with
    | none => []
    | some p =>
      if dataoff + datasize < p + chainedStartsInSegmentSize then
        [.report p chainedStartsInSegmentSize]
      else startsReads f t i p

/-- A bind entry reads the import its ordinal names. -/
def importReads (f : File) (dataoff : ℕ) : Event → List TableEvent
  | .fixup _ _ raw =>
    let hdr := chainedFixupsHeader f dataoff
    if chained64IsBind raw ∧ chained64BindOrdinal raw < hdr.importsCount then
      [.read (dataoff + hdr.importsOffset + 4 * (chained64BindOrdinal raw).toNat) 4]
    else []
  | _ => []

/-- The header and the starts table, which are compared with the end, lie inside. -/
def HasStarts (f : File) (dataoff datasize : ℕ) : Prop :=
  chainedFixupsHeaderSize ≤ datasize ∧ (chainedFixupsHeader f dataoff).startsOffset + 4 ≤ datasize

instance (f : File) (dataoff datasize : ℕ) : Decidable (HasStarts f dataoff datasize) := by
  unfold HasStarts; infer_instance

/-- The tables a walk comes to; the imports are read along the chains. -/
def chainedTableEvents (E : Env) (f : File) (c : MachContext) (dataoff datasize : ℕ) :
    List TableEvent :=
  let hdr := chainedFixupsHeader f dataoff
  if datasize < chainedFixupsHeaderSize then [.report dataoff chainedFixupsHeaderSize]
  else
    .read dataoff chainedFixupsHeaderSize ::
      if datasize ≤ hdr.startsOffset ∨ dataoff + datasize < dataoff + hdr.startsOffset + 4 then
        [.report (dataoff + hdr.startsOffset) 4]
      else
        .read (dataoff + hdr.startsOffset) 4 ::
          ((List.range (chainedSegCount f dataoff)).flatMap
              (segmentTableEvents f dataoff datasize c.segments) ++
            (walkEvents E f c dataoff datasize).flatMap (importReads f dataoff))

/-! ## Inside the payload -/

/-- A table that is read lies inside the payload, one that is reported reaches past its end. -/
def TableEvent.Proper (dataoff datasize : ℕ) : TableEvent → Prop
  | .read p n => dataoff ≤ p ∧ p + n ≤ dataoff + datasize
  | .report p n => dataoff + datasize < p + n

instance (dataoff datasize : ℕ) (ev : TableEvent) : Decidable (ev.Proper dataoff datasize) := by
  cases ev <;> (unfold TableEvent.Proper; infer_instance)

/-- How many entries of `page_start` are read. -/
def pagesRead (t : SegmentTable) (i : ℕ) (seg : ChainedStartsInSegment) : ℕ :=
  if ChainsWalked t i seg then seg.pageCount.toNat else min seg.pageCount.toNat 8

/-- The tables that are not compared with the end fit all the same: `seg_info_offset`, the
`page_start` tables as far as they are read, and the imports that the bind entries name. -/
structure TablesFit (E : Env) (f : File) (c : MachContext) (dataoff datasize : ℕ) : Prop where
  segInfo : (chainedFixupsHeader f dataoff).startsOffset + 4 + 4 * chainedSegCount f dataoff ≤ datasize
  pageStart : ∀ i < chainedSegCount f dataoff, ∀ p ∈ segInfoAt f dataoff i,
    p + chainedStartsInSegmentSize ≤ dataoff + datasize →
      p + 22 + 2 * pagesRead c.segments i (chainedStartsInSegment f p) ≤ dataoff + datasize
  imports : ∀ i loc raw, Event.fixup i loc raw ∈ walkEvents E f c dataoff datasize →
    chained64IsBind raw → chained64BindOrdinal raw < (chainedFixupsHeader f dataoff).importsCount →
      (chainedFixupsHeader f dataoff).importsOffset + 4 * (chained64BindOrdinal raw).toNat + 4 ≤
        datasize

variable {E : Env} {f : File} {dataoff datasize : ℕ} {t : SegmentTable}

theorem forall_pageStartReads {p n : ℕ} (hp : dataoff ≤ p)
    (hfit : p + chainedStartsInSegmentSize ≤ dataoff + datasize) :
    (∀ ev ∈ pageStartReads p n, ev.Proper dataoff datasize) ↔
      p + 22 + 2 * n ≤ dataoff + datasize := by
  simp only [pageStartReads, List.forall_mem_map, List.mem_range, TableEvent.Proper]
  rw [chainedStartsInSegmentSize] at hfit
  constructor
  · intro h
    rcases Nat.eq_zero_or_pos n with rfl | hn
    · omega
    · have hlast := (h (n - 1) (by omega)).2
      omega
  · intro h page hpage
    omega

theorem forall_startsReads {i p : ℕ} (hp : dataoff ≤ p)
    (hfit : p + chainedStartsInSegmentSize ≤ dataoff + datasize) :
    (∀ ev ∈ startsReads f t i p, ev.Proper dataoff datasize) ↔
      p + 22 + 2 * pagesRead t i (chainedStartsInSegment f p) ≤ dataoff + datasize := by
  have hread : (TableEvent.read p chainedStartsInSegmentSize).Proper dataoff datasize := ⟨hp, hfit⟩
  rw [startsReads, List.forall_mem_cons, List.forall_mem_append, forall_pageStartReads hp hfit,
    pagesRead]
  split_ifs with hwalked
  · rw [forall_pageStartReads hp hfit]
    constructor
    · exact fun h => h.2.2
    · exact fun h => ⟨hread, by omega, h⟩
  · exact ⟨fun h => h.2.1, fun h => ⟨hread, h, by simp⟩⟩

theorem le_of_mem_segInfoAt {i p : ℕ} (h : p ∈ segInfoAt f dataoff i) : dataoff ≤ p := by
  unfold segInfoAt at h
  dsimp only at h
  split_ifs at h
  · cases h
  · obtain rfl := Option.some.inj h
    omega

theorem forall_segmentTableEvents {i : ℕ} :
    (∀ ev ∈ segmentTableEvents f dataoff datasize t i, ev.Proper dataoff datasize) ↔
      (chainedFixupsHeader f dataoff).startsOffset + 4 + 4 * i + 4 ≤ datasize ∧
        ∀ p ∈ segInfoAt f dataoff i, p + chainedStartsInSegmentSize ≤ dataoff + datasize →
          p + 22 + 2 * pagesRead t i (chainedStartsInSegment f p) ≤ dataoff + datasize := by
  have hentry : (TableEvent.read (dataoff + (chainedFixupsHeader f dataoff).startsOffset + 4 + 4 * i)
      4).Proper dataoff datasize ↔
      (chainedFixupsHeader f dataoff).startsOffset + 4 + 4 * i + 4 ≤ datasize := by
    unfold TableEvent.Proper
    omega
  rw [segmentTableEvents, List.forall_mem_cons, hentry]
  refine and_congr_right fun _ => ?_
  cases hinfo : segInfoAt f dataoff i with
  | none => simp
  | some p =>
    have hp := le_of_mem_segInfoAt hinfo
    simp only [Option.mem_def, Option.some.injEq, forall_eq']
    split_ifs with hpast
    · have hreport : (TableEvent.report p chainedStartsInSegmentSize).Proper dataoff datasize := hpast
      simp only [List.mem_singleton, forall_eq]
      exact iff_of_true hreport fun h => absurd h (not_le.mpr hpast)
    · rw [forall_startsReads hp (not_lt.mp hpast)]
      exact ⟨fun h _ => h, fun h => h (not_lt.mp hpast)⟩

theorem forall_importReads {trace : List Event} :
    (∀ ev ∈ trace.flatMap (importReads f dataoff), ev.Proper dataoff datasize) ↔
      ∀ i loc raw, Event.fixup i loc raw ∈ trace → chained64IsBind raw →
        chained64BindOrdinal raw < (chainedFixupsHeader f dataoff).importsCount →
          (chainedFixupsHeader f dataoff).importsOffset + 4 * (chained64BindOrdinal raw).toNat + 4 ≤
            datasize := by
  constructor
  · intro h i loc raw hev hbind hordinal
    have hread : TableEvent.read (dataoff + (chainedFixupsHeader f dataoff).importsOffset +
        4 * (chained64BindOrdinal raw).toNat) 4 ∈ trace.flatMap (importReads f dataoff) :=
      List.mem_flatMap.mpr ⟨_, hev, by simp [importReads, hbind, hordinal]⟩
    have hproper := (h _ hread).2
    omega
  · intro h ev hev
    obtain ⟨event, hevent, hev⟩ := List.mem_flatMap.mp hev
    cases event with
    | fixup i loc raw =>
      simp only [importReads] at hev
      split_ifs at hev with hcond
      · obtain rfl := List.mem_singleton.mp hev
        have hfit := h i loc raw hevent hcond.1 hcond.2
        unfold TableEvent.Proper
        omega
      · cases hev
    | _ => cases hev

/-- **The walk keeps to the payload**, exactly if the tables that it does not compare with the end
fit: every table it reads lies inside, every one that reaches past the end is reported and skipped. -/
theorem tables_inside_iff (E : Env) (f : File) (c : MachContext) (dataoff datasize : ℕ) :
    (∀ ev ∈ chainedTableEvents E f c dataoff datasize, ev.Proper dataoff datasize) ↔
      (HasStarts f dataoff datasize → TablesFit E f c dataoff datasize) := by
  unfold chainedTableEvents
  dsimp only
  split_ifs with hsize hstarts
  · have hreport : (TableEvent.report dataoff chainedFixupsHeaderSize).Proper dataoff datasize :=
      Nat.add_lt_add_left hsize dataoff
    simp only [List.mem_singleton, forall_eq]
    exact iff_of_true hreport fun h => absurd h.1 (not_le.mpr hsize)
  · have hread : (TableEvent.read dataoff chainedFixupsHeaderSize).Proper dataoff datasize :=
      ⟨le_rfl, by omega⟩
    have hreport : (TableEvent.report (dataoff + (chainedFixupsHeader f dataoff).startsOffset)
        4).Proper dataoff datasize := by
      unfold TableEvent.Proper
      omega
    rw [List.forall_mem_cons, List.forall_mem_singleton]
    exact iff_of_true ⟨hread, hreport⟩ fun h => absurd h.2 (by omega)
  · have hhas : HasStarts f dataoff datasize := ⟨by omega, by omega⟩
    have hread : (TableEvent.read dataoff chainedFixupsHeaderSize).Proper dataoff datasize :=
      ⟨le_rfl, by omega⟩
    have hcount : (TableEvent.read (dataoff + (chainedFixupsHeader f dataoff).startsOffset)
        4).Proper dataoff datasize := ⟨by omega, by omega⟩
    rw [List.forall_mem_cons, List.forall_mem_cons, List.forall_mem_append, forall_importReads,
      List.forall_mem_flatMap]
    simp only [forall_segmentTableEvents, List.mem_range]
    constructor
    · rintro ⟨-, -, hsegs, himports⟩ -
      refine ⟨?_, fun i hi => (hsegs i hi).2, himports⟩
      rcases Nat.eq_zero_or_pos (chainedSegCount f dataoff) with hnone | hsome
      · rw [hnone]
        exact hhas.2
      · have hlast := (hsegs (chainedSegCount f dataoff - 1) (by omega)).1
        omega
    · intro h
      have hfit := h hhas
      have hseg := hfit.segInfo
      exact ⟨hread, hcount, fun i hi => ⟨by omega, hfit.pageStart i hi⟩, hfit.imports⟩

/-- A payload that ends behind its `seg_count` of one. -/
def shortPayload : File := leBytes 4 0 ++ leBytes 4 28 ++ leBytes 20 0 ++ leBytes 4 1

/-- The entry of `seg_info_offset` that the count announces is read behind the end. -/
theorem tables_outside_shortPayload :
    0 + 32 ≤ shortPayload.length ∧
      ¬ ∀ ev ∈ chainedTableEvents Env.plain shortPayload (MachContext.zero fun _ => 0#8) 0 32,
        ev.Proper 0 32 := by
  refine ⟨by decide, fun h => absurd (h (.read 32 4) ?_) (by decide)⟩
  decide

/-! ## Nothing else is read -/

/-- Two files agree on the bytes that are read. -/
def TableEvent.Agree (f g : File) : TableEvent → Prop
  | .read p n => ∀ k < n, byteAt g (p + k) = byteAt f (p + k)
  | .report _ _ => True

/-- Where the name of an import stands. -/
def importNameAt (f : File) (dataoff : ℕ) (ordinal : BitVec 32) : ℕ :=
  let hdr := chainedFixupsHeader f dataoff
  dataoff + hdr.symbolsOffset + (u32 f (dataoff + hdr.importsOffset + 4 * ordinal.toNat) >>> 9).toNat

/-- Two files agree on the tables that a walk over the first reads, and on the names of the imports
it comes to. -/
structure SameTables (E : Env) (f g : File) (c : MachContext) (dataoff datasize : ℕ) : Prop where
  tables : ∀ ev ∈ chainedTableEvents E f c dataoff datasize, ev.Agree f g
  names : ∀ i loc raw, Event.fixup i loc raw ∈ walkEvents E f c dataoff datasize →
    chained64IsBind raw → chained64BindOrdinal raw < (chainedFixupsHeader f dataoff).importsCount →
      cstrAt g (importNameAt f dataoff (chained64BindOrdinal raw)) =
        cstrAt f (importNameAt f dataoff (chained64BindOrdinal raw))

section Congr

variable {g : File}

theorem TableEvent.Agree.bytesAt {p n : ℕ} (h : (TableEvent.read p n).Agree f g) {k m : ℕ}
    (hk : k + m ≤ n) : bytesAt g (p + k) m = bytesAt f (p + k) m := by
  refine bytesAt_congr fun i hi => ?_
  rw [Nat.add_assoc]
  exact h (k + i) (by omega)

theorem TableEvent.Agree.u16 {p n : ℕ} (h : (TableEvent.read p n).Agree f g) {k : ℕ}
    (hk : k + 2 ≤ n) : u16 g (p + k) = u16 f (p + k) := by
  rw [Maloader.u16, Maloader.u16, h.bytesAt hk]

theorem TableEvent.Agree.u32 {p n : ℕ} (h : (TableEvent.read p n).Agree f g) {k : ℕ}
    (hk : k + 4 ≤ n) : u32 g (p + k) = u32 f (p + k) := by
  rw [Maloader.u32, Maloader.u32, h.bytesAt hk]

theorem TableEvent.Agree.u64 {p n : ℕ} (h : (TableEvent.read p n).Agree f g) {k : ℕ}
    (hk : k + 8 ≤ n) : u64 g (p + k) = u64 f (p + k) := by
  rw [Maloader.u64, Maloader.u64, h.bytesAt hk]

theorem TableEvent.Agree.header {p : ℕ}
    (h : (TableEvent.read p chainedFixupsHeaderSize).Agree f g) :
    chainedFixupsHeader g p = chainedFixupsHeader f p := by
  unfold chainedFixupsHeader
  rw [h.u32 (by decide), h.u32 (by decide), h.u32 (by decide), h.u32 (by decide), h.u32 (by decide)]

theorem TableEvent.Agree.starts {p : ℕ}
    (h : (TableEvent.read p chainedStartsInSegmentSize).Agree f g) :
    chainedStartsInSegment g p =
      { chainedStartsInSegment f p with pageStart := (chainedStartsInSegment g p).pageStart } := by
  unfold chainedStartsInSegment
  rw [h.u16 (by decide), h.u16 (by decide), h.u16 (by decide), h.u64 (by decide)]

theorem chainedSegment_eq_segInfoAt (c : MachContext) (i : ℕ) :
    chainedSegment E f dataoff datasize (chainedFixupsHeader f dataoff) c i =
      match segInfoAt f dataoff i with
      | none => c
      | some p =>
        if dataoff + datasize < p + chainedStartsInSegmentSize then c
        else if (chainedStartsInSegment f p).pointerFormat = malDyldChainedPtr64Offset then
          dumpChained64OffsetEntries E f dataoff (chainedFixupsHeader f dataoff) i
            (chainedStartsInSegment f p) c
        else c := by
  unfold chainedSegment segInfoAt
  dsimp only
  by_cases hnone : (u32 f (dataoff + (chainedFixupsHeader f dataoff).startsOffset + 4 + 4 * i)).toNat = 0
  · rw [if_pos hnone, if_pos hnone]
  · rw [if_neg hnone, if_neg hnone]

theorem dumpChainedFixups_of_hasStarts (h : HasStarts f dataoff datasize) (c : MachContext) :
    dumpChainedFixups E f c dataoff datasize = (List.range (chainedSegCount f dataoff)).foldl
      (chainedSegment E f dataoff datasize (chainedFixupsHeader f dataoff)) c.resetCounts := by
  have hstarts := h.2
  unfold dumpChainedFixups
  dsimp only
  rw [if_neg (not_lt.mpr h.1), if_neg (by omega), if_neg (by omega)]
  rfl

theorem dumpChainedFixups_of_not_hasStarts (h : ¬ HasStarts f dataoff datasize) (c : MachContext) :
    dumpChainedFixups E f c dataoff datasize = c.resetCounts := by
  rw [HasStarts, not_and_or, not_le, not_le] at h
  unfold dumpChainedFixups
  dsimp only
  split_ifs
  · rfl
  · rfl
  · rfl
  · omega

theorem dumpChained64OffsetEntries_congr_starts {hdr : ChainedFixupsHeader}
    {seg seg' : ChainedStartsInSegment} (hseg : seg' = { seg with pageStart := seg'.pageStart })
    {i : ℕ} {c : MachContext} (hpages : c.segments.Mapped i → ∀ page < seg.pageCount.toNat,
      seg'.pageStart page = seg.pageStart page) :
    dumpChained64OffsetEntries E f dataoff hdr i seg' c =
      dumpChained64OffsetEntries E f dataoff hdr i seg c := by
  by_cases hm : c.segments.Mapped i
  · have hcount := congrArg ChainedStartsInSegment.pageCount hseg
    rw [dumpChained64OffsetEntries_of_mapped E f dataoff hdr i hm,
      dumpChained64OffsetEntries_of_mapped E f dataoff hdr i hm, hcount]
    refine List.foldl_ext _ _ _ fun d page hpage => ?_
    have hpage := hpages hm page (List.mem_range.mp hpage)
    rw [hseg]
    unfold chainedPage
    dsimp only
    rw [hpage]
  · rw [dumpChained64OffsetEntries_of_not_mapped E f dataoff hdr i hm,
      dumpChained64OffsetEntries_of_not_mapped E f dataoff hdr i hm]

/-- The name a bind entry gets is the same in both files. -/
def NameAgrees (f g : File) (dataoff : ℕ) (hdr : ChainedFixupsHeader) (raw : BitVec 64) : Prop :=
  chained64IsBind raw → chainedImportName g dataoff hdr (chained64BindOrdinal raw) =
    chainedImportName f dataoff hdr (chained64BindOrdinal raw)

theorem chainedEntry_congr {hdr : ChainedFixupsHeader} {raw : BitVec 64}
    (h : NameAgrees f g dataoff hdr raw) (segment : ℕ) (c : MachContext) (loc : Addr) :
    chainedEntry E g dataoff hdr segment c loc raw = chainedEntry E f dataoff hdr segment c loc raw := by
  unfold chainedEntry
  by_cases hbind : chained64IsBind raw
  · rw [h hbind]
  · simp only [hbind, Bool.false_eq_true, if_false]

/-- An entry in the log has another name in the second file. -/
def NameDiffers (f g : File) (dataoff : ℕ) (hdr : ChainedFixupsHeader) (c : MachContext) : Prop :=
  ∃ i loc raw, Event.fixup i loc raw ∈ c.trace ∧ ¬ NameAgrees f g dataoff hdr raw

theorem NameDiffers.entry {hdr : ChainedFixupsHeader} {c : MachContext}
    (h : NameDiffers f g dataoff hdr c) (segment : ℕ) (loc : Addr) (raw : BitVec 64) :
    NameDiffers f g dataoff hdr (chainedEntry E f dataoff hdr segment c loc raw) := by
  obtain ⟨i, loc', raw', hev, hname⟩ := h
  refine ⟨i, loc', raw', ?_, hname⟩
  rw [chainedEntry_eq]
  exact List.mem_append_left _ hev

/-- The walks over the two files are in the same context, or behind an entry whose name differs. -/
def Together (f g : File) (dataoff : ℕ) (hdr : ChainedFixupsHeader) (t : SegmentTable)
    (c c' : MachContext) : Prop := NameDiffers f g dataoff hdr c ∨ c' = c ∧ c.segments = t

/-- **Two walks stay together** as long as the names agree. -/
theorem walkRel_together (E : Env) (f g : File) (dataoff : ℕ) (hdr : ChainedFixupsHeader)
    (t : SegmentTable) : WalkRel (NameDiffers f g dataoff hdr) (Together f g dataoff hdr t)
      (chainedEntry E f dataoff hdr) (chainedEntry E g dataoff hdr) where
  escape := Or.inl
  step_escape := fun segment loc raw hx => hx.entry segment loc raw
  same := by
    rintro c c' (hx | ⟨rfl, -⟩) hnot
    · exact absurd hx hnot
    · exact ⟨rfl, rfl⟩
  read := by
    rintro c c' segment loc (hx | ⟨rfl, -⟩) hnot
    · exact absurd (hx.entry segment loc _) hnot
    · rfl
  entry := by
    rintro c c' segment loc raw (hx | ⟨rfl, ht⟩)
    · exact Or.inl (hx.entry segment loc raw)
    · -- the entry is logged, so a name that differs is found there
      by_cases hname : NameAgrees f g dataoff hdr raw
      · refine Or.inr ⟨chainedEntry_congr hname segment c' loc, ?_⟩
        rw [chainedEntry_eq]
        exact ht
      · refine Or.inl ⟨segment, loc, raw, ?_, hname⟩
        rw [chainedEntry_eq]
        exact List.mem_append_right _ List.mem_cons_self

variable {c : MachContext}

theorem SameTables.header (h : SameTables E f g c dataoff datasize)
    (hsize : chainedFixupsHeaderSize ≤ datasize) :
    chainedFixupsHeader g dataoff = chainedFixupsHeader f dataoff := by
  refine TableEvent.Agree.header (h.tables _ ?_)
  rw [chainedTableEvents, if_neg (not_lt.mpr hsize)]
  exact List.mem_cons_self

theorem chainedTableEvents_of_hasStarts (hs : HasStarts f dataoff datasize) :
    chainedTableEvents E f c dataoff datasize = .read dataoff chainedFixupsHeaderSize ::
      .read (dataoff + (chainedFixupsHeader f dataoff).startsOffset) 4 ::
        ((List.range (chainedSegCount f dataoff)).flatMap
            (segmentTableEvents f dataoff datasize c.segments) ++
          (walkEvents E f c dataoff datasize).flatMap (importReads f dataoff)) := by
  have hstarts := hs.2
  rw [chainedTableEvents, if_neg (not_lt.mpr hs.1), if_neg (by omega)]

variable (h : SameTables E f g c dataoff datasize) (hs : HasStarts f dataoff datasize)
include h hs

theorem SameTables.segCount : chainedSegCount g dataoff = chainedSegCount f dataoff := by
  have hcount : (TableEvent.read (dataoff + (chainedFixupsHeader f dataoff).startsOffset) 4).Agree f g :=
    h.tables _ (by rw [chainedTableEvents_of_hasStarts hs]; simp)
  rw [chainedSegCount, chainedSegCount, h.header hs.1]
  exact congrArg BitVec.toNat (hcount.u32 (k := 0) le_rfl)

theorem SameTables.segment {i : ℕ} (hi : i < chainedSegCount f dataoff) :
    ∀ ev ∈ segmentTableEvents f dataoff datasize c.segments i, ev.Agree f g := by
  intro ev hev
  refine h.tables ev ?_
  rw [chainedTableEvents_of_hasStarts hs]
  refine List.mem_cons_of_mem _ (List.mem_cons_of_mem _ (List.mem_append_left _ ?_))
  exact List.mem_flatMap.mpr ⟨i, List.mem_range.mpr hi, hev⟩

theorem SameTables.segInfoAt {i : ℕ} (hi : i < chainedSegCount f dataoff) :
    segInfoAt g dataoff i = segInfoAt f dataoff i := by
  have hentry := (h.segment hs hi _ List.mem_cons_self).u32 (k := 0) le_rfl
  rw [Nat.add_zero] at hentry
  unfold Maloader.segInfoAt
  rw [h.header hs.1]
  dsimp only
  rw [hentry]

theorem SameTables.chainedSegment {i : ℕ} (hi : i < chainedSegCount f dataoff) {d : MachContext}
    (hd : d.segments = c.segments) :
    chainedSegment E g dataoff datasize (chainedFixupsHeader f dataoff) d i =
      match Maloader.segInfoAt f dataoff i with
      | none => d
      | some p =>
        if dataoff + datasize < p + chainedStartsInSegmentSize then d
        else if (chainedStartsInSegment f p).pointerFormat = malDyldChainedPtr64Offset then
          dumpChained64OffsetEntries E g dataoff (chainedFixupsHeader f dataoff) i
            (chainedStartsInSegment f p) d
        else d := by
  have hheader := h.header hs.1
  rw [← hheader, chainedSegment_eq_segInfoAt, h.segInfoAt hs hi, hheader]
  have hreads := h.segment hs hi
  rw [segmentTableEvents] at hreads
  cases hinfo : Maloader.segInfoAt f dataoff i with
  | none => rfl
  | some p =>
    rw [hinfo] at hreads
    dsimp only at hreads ⊢
    by_cases hpast : dataoff + datasize < p + chainedStartsInSegmentSize
    · rw [if_pos hpast, if_pos hpast]
    · rw [if_neg hpast] at hreads ⊢
      rw [if_neg hpast]
      have hrecord := (hreads _ (List.mem_cons_of_mem _ List.mem_cons_self)).starts
      have hformat := congrArg ChainedStartsInSegment.pointerFormat hrecord
      dsimp only at hformat
      rw [hformat]
      split_ifs with hwalked
      · refine dumpChained64OffsetEntries_congr_starts hrecord fun hm page hpage => ?_
        rw [hd] at hm
        have hread : TableEvent.read (p + 22 + 2 * page) 2 ∈ startsReads f c.segments i p := by
          rw [startsReads, if_pos ⟨hwalked, hm⟩]
          refine List.mem_cons_of_mem _ (List.mem_append_right _ ?_)
          exact List.mem_map.mpr ⟨page, List.mem_range.mpr hpage, rfl⟩
        exact (hreads _ (List.mem_cons_of_mem _ hread)).u16 (k := 0) le_rfl
      · rfl

theorem SameTables.nameAgrees {i : ℕ} {loc : Addr} {raw : BitVec 64}
    (hev : Event.fixup i loc raw ∈ walkEvents E f c dataoff datasize) :
    NameAgrees f g dataoff (chainedFixupsHeader f dataoff) raw := by
  intro hbind
  unfold chainedImportName
  split_ifs with hcount
  · rfl
  · have hordinal := BitVec.not_le.mp hcount
    have hread : TableEvent.read (dataoff + (chainedFixupsHeader f dataoff).importsOffset +
        4 * (chained64BindOrdinal raw).toNat) 4 ∈ chainedTableEvents E f c dataoff datasize := by
      rw [chainedTableEvents_of_hasStarts hs]
      refine List.mem_cons_of_mem _ (List.mem_cons_of_mem _ (List.mem_append_right _ ?_))
      exact List.mem_flatMap.mpr ⟨_, hev, by simp [importReads, hbind, hordinal]⟩
    have hword := (h.tables _ hread).u32 (k := 0) le_rfl
    have hname := h.names i loc raw hev hbind hordinal
    rw [Nat.add_zero] at hword
    dsimp only
    rw [hword]
    exact congrArg some hname

theorem SameTables.together : Together f g dataoff (chainedFixupsHeader f dataoff) c.segments
    (dumpChainedFixups E f c.silent dataoff datasize)
    (dumpChainedFixups E g c.silent dataoff datasize) := by
  have hrel := walkRel_together E f g dataoff (chainedFixupsHeader f dataoff) c.segments
  have hhas : HasStarts g dataoff datasize := by
    rw [HasStarts, h.header hs.1]
    exact hs
  rw [dumpChainedFixups_of_hasStarts hs, dumpChainedFixups_of_hasStarts hhas, h.segCount hs,
    h.header hs.1]
  refine List.foldl_rel (Or.inr ⟨rfl, rfl⟩) fun i hi d d' hr => ?_
  rw [chainedSegment_eq_segInfoAt]
  rcases hr with hx | ⟨rfl, hd⟩
  · refine Or.inl ?_
    split
    · exact hx
    · split_ifs
      · exact hx
      · exact dumpChained64OffsetEntries_escape hrel i _ hx
      · exact hx
  · have hsame : Together f g dataoff (chainedFixupsHeader f dataoff) c.segments d' d' :=
      Or.inr ⟨rfl, hd⟩
    rw [h.chainedSegment hs (List.mem_range.mp hi) hd]
    split
    · exact hsame
    · split_ifs
      · exact hsame
      · exact dumpChained64OffsetEntries_rel hrel i _ hsame
      · exact hsame

omit hs in
/-- **The walk depends on the tables it reads and the names of its imports only.** -/
theorem dumpChainedFixups_congr :
    dumpChainedFixups E g c dataoff datasize = dumpChainedFixups E f c dataoff datasize := by
  suffices hsilent : dumpChainedFixups E g c.silent dataoff datasize =
      dumpChainedFixups E f c.silent dataoff datasize by
    rw [dumpChainedFixups_silent E g, dumpChainedFixups_silent E f, walkEvents, walkEvents, hsilent]
  by_cases hs : HasStarts f dataoff datasize
  · rcases h.together hs with ⟨i, loc, raw, hev, hname⟩ | ⟨heq, -⟩
    · exact absurd (h.nameAgrees hs hev) hname
    · exact heq
  · have hg : ¬ HasStarts g dataoff datasize := by
      intro hg
      rw [HasStarts, h.header hg.1] at hg
      exact hs hg
    rw [dumpChainedFixups_of_not_hasStarts hs, dumpChainedFixups_of_not_hasStarts hg]

end Congr

end Maloader
