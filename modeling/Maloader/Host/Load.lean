import Maloader.Segment.Reference
import Maloader.Loader.Spec
import Maloader.Host.Resolve

/-!
# Loading and binding

A classic executable from the file to the bound image: the segments make the reference image, the
bind table names slots of it, and binding fills them.

* `slotOffset`, `BindRegs.HasSlot`: where a row's slot is in the image.
* `WellFormedBinds`: the conditions on the bind table; `record_eq`: where the records point.
* `RecordsSlots`, `RecordsSlots.load64_bound`, `RecordsSlots.mem_bound`: the slots after binding.
* **`loader64_doBind`**.
-/

namespace Maloader

open ByteLib

/-- The offset of a row's slot in the image: the segments count with `__PAGEZERO`. -/
def slotOffset (f : File) (base : ℕ) (row : BindRegs) : ℕ :=
  ((segmentsOf (commands f))[row.segment.toNat]?).elim 0 fun seg =>
    seg.vmaddr.toNat - base + row.offset.toNat

/-- A row with a symbol and a slot in a segment of the image, not at its start. -/
structure BindRegs.HasSlot (row : BindRegs) (f : File) (base : ℕ) : Prop where
  symbol : row.symbol ≠ none
  segment_nonneg : 0 ≤ row.segment
  segment : ∃ seg, (segmentsOf (commands f))[row.segment.toNat]? = some seg ∧ ¬ seg.isPagezero ∧
    row.offset.toNat + 8 ≤ seg.vmsize.toNat
  ne_zero : slotOffset f base row ≠ 0

instance BindRegs.instDecidableHasSlot (row : BindRegs) (f : File) (base : ℕ) :
    Decidable (row.HasSlot f base) :=
  decidable_of_iff (row.symbol ≠ none ∧ 0 ≤ row.segment ∧ slotOffset f base row ≠ 0 ∧
      ∃ seg ∈ (segmentsOf (commands f))[row.segment.toNat]?, ¬ seg.isPagezero ∧
        row.offset.toNat + 8 ≤ seg.vmsize.toNat)
    ⟨fun ⟨h1, h2, h3, h4⟩ => ⟨h1, h2, h4, h3⟩, fun h => ⟨h.1, h.2, h.4, h.3⟩⟩

/-- The file has one bind table, both streams of which are programs whose slots lie in the image and
apart. -/
structure WellFormedBinds (f : File) (base : ℕ) (info : DyldInfoCommand) (bind lazyBind : List BindOp) :
    Prop where
  infos : infosOf (commands f) = [info]
  streams : BindStreams f info bind lazyBind
  slots : ∀ row ∈ bindRows bind lazyBind, row.HasSlot f base
  apart : (bindRows bind lazyBind).Pairwise fun row row' =>
    slotOffset f base row + 8 ≤ slotOffset f base row' ∨
      slotOffset f base row' + 8 ≤ slotOffset f base row

/-! ## Rows -/

theorem segment_lt_of_mem_programRows {prog : List BindOp} {r : BindRegs} (hr : r.segment < 16)
    {row : BindRegs} (hrow : row ∈ programRows r prog) : row.segment < 16 := by
  induction prog generalizing r with
  | nil => simp [programRows] at hrow
  | cons o prog ih =>
    rcases List.mem_append.mp hrow with hrow | hrow
    · cases o with
      | doBind | doBindAddAddrUleb | doBindAddAddrImmScaled =>
        rw [List.mem_singleton.mp hrow]
        exact hr
      | doBindUlebTimesSkippingUleb =>
        obtain ⟨i, -, rfl⟩ := List.mem_map.mp hrow
        exact hr
      | _ => simp [BindOp.rows] at hrow
    · refine ih ?_ hrow
      cases o with
      | setSegmentAndOffsetUleb imm u =>
        have := imm.isLt
        simp only [BindOp.regs]
        omega
      | _ => exact hr

theorem segment_lt_of_mem_bindRows {bind lazyBind : List BindOp} {row : BindRegs}
    (hrow : row ∈ bindRows bind lazyBind) : row.segment < 16 := by
  rcases List.mem_append.mp hrow with h | h <;>
    exact segment_lt_of_mem_programRows (by decide) h

variable {E : Env} {f : File} {base top : ℕ} {info : DyldInfoCommand} {bind lazyBind : List BindOp}

/-! ## Where the records point -/

theorem mappedAddr_recordOf (h : WellFormedImage f base top)
    (htext : ∀ seg ∈ imageSegments f, seg.isText → seg.vmaddr.toNat = base) (B : Addr)
    {seg : SegmentCommand64} (hseg : seg ∈ imageSegments f) :
    (recordOf B (BitVec.ofNat 64 base) seg).mappedAddr =
      B + BitVec.ofNat 64 (seg.vmaddr.toNat - base) := by
  have hp : ¬ seg.isPagezero := by simpa using (List.mem_filter.mp hseg).2
  have hsub : seg.vmaddr - BitVec.ofNat 64 base = BitVec.ofNat 64 (seg.vmaddr.toNat - base) := by
    rw [← h.toNat_sub hseg, BitVec.ofNat_toNat, BitVec.setWidth_eq]
  rw [recordOf]
  dsimp only
  rw [if_neg hp, hsub]
  split_ifs with ht
  · rw [htext seg hseg ht, Nat.sub_self, BitVec.add_zero]
  · rfl

/-- **A row's record points at its slot** in the mapped image. -/
theorem record_eq (h : WellFormedImage f base top)
    (htext : ∀ seg ∈ imageSegments f, seg.isText → seg.vmaddr.toNat = base) {B : Addr} (hB : B ≠ 0#64)
    (hfit : B.toNat + (top - base) ≤ 2 ^ 64) {t : SegmentTable}
    (ht : t.recs = ((segmentsOf (commands f)).map (recordOf B (BitVec.ofNat 64 base))).take
      machLoaderMaxSegments) {row : BindRegs} (hlt : row.segment < 16) (hrow : row.HasSlot f base) :
    row.record t = ⟨row.symbol, B + BitVec.ofNat 64 (slotOffset f base row)⟩ ∧
      slotOffset f base row + 8 ≤ top - base := by
  obtain ⟨seg, hseg, hp, hsize⟩ := hrow.segment
  have hnonneg := hrow.segment_nonneg
  have hmem : seg ∈ imageSegments f :=
    List.mem_filter.mpr ⟨List.mem_of_getElem? hseg, by simpa using hp⟩
  have hbase := h.span.base_le seg hmem
  have htop := h.span.le_top seg hmem
  have hmapped := mappedAddr_recordOf h htext B hmem
  have hslot : slotOffset f base row = seg.vmaddr.toNat - base + row.offset.toNat := by
    rw [slotOffset, hseg]
    rfl
  have hrec : t.recs[row.segment.toNat]? = some (recordOf B (BitVec.ofNat 64 base) seg) := by
    have hmax : row.segment.toNat < machLoaderMaxSegments := by
      rw [machLoaderMaxSegments]
      omega
    rw [ht, List.getElem?_take_of_lt hmax, List.getElem?_map, hseg, Option.map_some]
  have hne := h.mappedAddr_ne_zero hB hfit hmem
  refine ⟨?_, by omega⟩
  rw [BindRegs.record, SegmentTable.locate, hrec, Option.filter_some, if_pos (by simp [hnonneg, hne]),
    Option.elim_some, hmapped, hslot, BitVec.add_assoc, BitVec.ofNat_add, BitVec.ofNat_toNat,
    BitVec.setWidth_eq]

/-! ## Slots after binding -/

/-- The bind list of `c` has the records of the rows, which point at the rows' slots in an image of
`size` bytes at `B`. -/
structure RecordsSlots (f : File) (base size : ℕ) (B : Addr) (rows : List BindRegs)
    (c : MachContext) : Prop where
  bList_eq : c.bList = rows.map (BindRegs.record c.segments)
  record_eq : ∀ row ∈ rows,
    row.record c.segments = ⟨row.symbol, B + BitVec.ofNat 64 (slotOffset f base row)⟩
  slot_le : ∀ row ∈ rows, slotOffset f base row + 8 ≤ size

section Slots

variable {H : Host} {size : ℕ} {B : Addr} {rows : List BindRegs} {c : MachContext}

theorem RecordsSlots.named (h : RecordsSlots f base size B rows c)
    (hsymbol : ∀ row ∈ rows, row.symbol ≠ none) : ∀ r ∈ c.bList, r.Named c.imgAddr := by
  rw [h.bList_eq]
  intro r hr
  obtain ⟨row, hrow, rfl⟩ := List.mem_map.mp hr
  exact Or.inr (hsymbol row hrow)

theorem RecordsSlots.pairwise (h : RecordsSlots f base size B rows c) (hfit : B.toNat + size ≤ 2 ^ 64)
    (hapart : rows.Pairwise fun row row' =>
      slotOffset f base row + 8 ≤ slotOffset f base row' ∨
        slotOffset f base row' + 8 ≤ slotOffset f base row) :
    c.bList.Pairwise fun r r' => SlotsApart 8 r.address r'.address := by
  rw [h.bList_eq, List.pairwise_map]
  refine List.Pairwise.imp_of_mem (fun {row row'} hrow hrow' hd => ?_) hapart
  have hle := h.slot_le row hrow
  have hle' := h.slot_le row' hrow'
  rw [h.record_eq row hrow, h.record_eq row' hrow']
  exact slotsApart_offset B (by omega) (by omega) (by norm_num) hd

theorem RecordsSlots.mem_bound (h : RecordsSlots f base size B rows c)
    (hfit : B.toNat + size ≤ 2 ^ 64) {x : Addr} (hx : ∀ row ∈ rows,
      ¬ (slotOffset f base row ≤ (x - B).toNat ∧ (x - B).toNat < slotOffset f base row + 8)) :
    (c.bound H).mem x = c.mem x := by
  rw [Maloader.mem_bound]
  refine applyWrites_bindWrites_of_not_inRange H (fun r hr _ hin => ?_) _ _
  rw [h.bList_eq] at hr
  obtain ⟨row, hrow, rfl⟩ := List.mem_map.mp hr
  have hle := h.slot_le row hrow
  rw [h.record_eq row hrow, ← add_ofNat_toNat_sub B x,
    inRange_offset_iff B (BitVec.isLt _) (by omega) (by omega)] at hin
  exact hx row hrow hin

theorem RecordsSlots.load64_bound (h : RecordsSlots f base size B rows c)
    (hfit : B.toNat + size ≤ 2 ^ 64) (himg : c.imgAddr = B)
    (hapart : c.bList.Pairwise fun r r' => SlotsApart 8 r.address r'.address)
    {row : BindRegs} (hrow : row ∈ rows) (hpos : slotOffset f base row ≠ 0) {n : CString}
    (hn : row.symbol = some n) :
    load64 (c.bound H).mem (B + BitVec.ofNat 64 (slotOffset f base row)) =
      (hostValue H (openLibraries H (boundLibraries c.dList)) (dropUnderscore n)).getD
        (load64 c.mem (B + BitVec.ofNat 64 (slotOffset f base row))) := by
  have hle := h.slot_le row hrow
  have haddr : (row.record c.segments).address = B + BitVec.ofNat 64 (slotOffset f base row) :=
    congrArg BindInfo.address (h.record_eq row hrow)
  have hname : (row.record c.segments).funcName = some n := hn
  have hmem : row.record c.segments ∈ c.bList := by
    rw [h.bList_eq]
    exact List.mem_map_of_mem hrow
  have hlt : c.imgAddr < (row.record c.segments).address := by
    rw [himg, haddr, BitVec.lt_def, BitVec.toNat_add, BitVec.toNat_ofNat,
      Nat.mod_eq_of_lt (a := slotOffset f base row) (by omega), Nat.mod_eq_of_lt (by omega)]
    omega
  have hslot := load64_applyWrites_bindWrites H hapart hmem hname hlt
    (openLibraries H (boundLibraries c.dList)) c.mem
  rwa [haddr] at hslot

end Slots

/-! ## The whole way -/

theorem loader64_classic (h : WellFormedImage f base top) (hc : chainedOf (commands f) = [])
    (hfirst : SegmentsFirst f) (hb : WellFormedBinds f base info bind lazyBind) {B : Addr}
    (hmaps : Maps E f B) (m : Mem 64) :
    ∃ c : MachContext, loader64 E f (MachContext.zero m) = (0, c) ∧ c.imgAddr = B ∧
      c.mem = loadedMem f m B base (pageUp (top - base)) ∧
      c.dList = dylibsOf (commands f) ∧
      c.bList = (bindRows bind lazyBind).map (BindRegs.record c.segments) ∧
      c.segments.recs = ((segmentsOf (commands f)).map (recordOf B (BitVec.ofNat 64 base))).take
        machLoaderMaxSegments := by
  have hrun : chainedRun E f (commands f) (MachContext.loaded f m B) = MachContext.loaded f m B := by
    rw [chainedRun, hc, List.foldl_nil]
  have hrecs := recs_loaded f m B
  have hbase : (hull f).1 = BitVec.ofNat 64 base := congrArg Prod.fst h.hull_eq
  rw [hbase] at hrecs
  refine ⟨_, loader64_segmentsFirst E f hmaps h.executable h.sized hfirst m, ?_⟩
  rw [hrun, withTables_loaded]
  dsimp only [MachContext.withImage, MachContext.atPtr]
  refine ⟨rfl, h.mem_placed _ B, rfl, ?_, hrecs⟩
  rw [hb.infos, List.flatMap_singleton, hb.streams.dyldInfoRecords_eq]

/-- **Loading and binding a classic file**: every slot holds the value chosen for its symbol, or what
the file has there if no library knows it; every other byte of the image is that of the reference
image, and nothing else is written. -/
theorem loader64_doBind (E : Env) (H : Host) (f : File) (m : Mem 64) {B : Addr}
    (h : WellFormedImage f base top) (hc : chainedOf (commands f) = [])
    (hfirst : SegmentsFirst f)
    (htext : ∀ seg ∈ imageSegments f, seg.isText → seg.vmaddr.toNat = base)
    (hb : WellFormedBinds f base info bind lazyBind) (hB : B ≠ 0#64)
    (hmap : E.mmap [] (BitVec.ofNat 64 base) (BitVec.ofNat 64 (pageUp (top - base))) = some B)
    (hfit : B.toNat + pageUp (top - base) ≤ 2 ^ 64)
    (hopen : openLibraries H (boundLibraries (dylibsOf (commands f))) ≠ []) :
    let libraries := openLibraries H (boundLibraries (dylibsOf (commands f)))
    ∃ c c' : MachContext, loader64 E f (MachContext.zero m) = (0, c) ∧ doBind H c = some (0, c') ∧
      (∀ row ∈ bindRows bind lazyBind, ∀ n, row.symbol = some n →
        load64 c'.mem (B + BitVec.ofNat 64 (slotOffset f base row)) =
          (chosenValue H libraries (dropUnderscore n)).getD
            (word64 (referenceImage f base) (slotOffset f base row))) ∧
      (∀ o < pageUp (top - base), (∀ row ∈ bindRows bind lazyBind,
          ¬ (slotOffset f base row ≤ o ∧ o < slotOffset f base row + 8)) →
        c'.mem (B + BitVec.ofNat 64 o) = referenceImage f base o) ∧
      ∀ x, pageUp (top - base) ≤ (x - B).toNat → c'.mem x = m x := by
  intro libraries
  obtain ⟨c, hload, himg, hmem, hdlist, hblist, hrecs⟩ :=
    loader64_classic h hc hfirst hb (h.maps hB hmap) m
  have hup := le_pageUp (top - base)
  have hrecord : ∀ row ∈ bindRows bind lazyBind, row.record c.segments =
      ⟨row.symbol, B + BitVec.ofNat 64 (slotOffset f base row)⟩ ∧
        slotOffset f base row + 8 ≤ top - base := fun row hrow =>
    record_eq h htext hB (by omega) hrecs (segment_lt_of_mem_bindRows hrow) (hb.slots row hrow)
  have hslots : RecordsSlots f base (top - base) B (bindRows bind lazyBind) c :=
    ⟨hblist, fun row hrow => (hrecord row hrow).1, fun row hrow => (hrecord row hrow).2⟩
  have hcmem : ∀ o < pageUp (top - base), c.mem (B + BitVec.ofNat 64 o) = referenceImage f base o := by
    intro o ho
    rw [hmem]
    exact view_loadedMem h m B ho (by omega)
  have hbind := doBind_eq H c (hslots.named fun row hrow => (hb.slots row hrow).symbol)
  refine ⟨c, c.bound H, hload, hbind, ?_, ?_, ?_⟩
  · intro row hrow n hn
    have hle := hslots.slot_le row hrow
    have hold : load64 c.mem (B + BitVec.ofNat 64 (slotOffset f base row)) =
        word64 (referenceImage f base) (slotOffset f base row) := by
      rw [load64_eq_word64]
      exact word64_congr fun i hi => hcmem _ (by omega)
    rw [hslots.load64_bound (by omega) himg (hslots.pairwise (by omega) hb.apart) hrow
      (hb.slots row hrow).ne_zero hn, hdlist, hostValue_eq_chosenValue H hopen, hold]
  · intro o ho hrows
    have hx : (B + BitVec.ofNat 64 o - B).toNat = o := toNat_add_sub_self B (by omega)
    rw [hslots.mem_bound (by omega) (by rwa [hx]), hcmem o ho]
  · intro x hx
    have hout : ∀ row ∈ bindRows bind lazyBind, ¬ (slotOffset f base row ≤ (x - B).toNat ∧
        (x - B).toNat < slotOffset f base row + 8) := fun row hrow hin => by
      have hle := hslots.slot_le row hrow
      omega
    rw [hslots.mem_bound (by omega) hout, hmem]
    exact loadedMem_of_le h m B hx

theorem bindRows_classic : bindRows classicProgram classicLazyProgram =
    [⟨some (lit "_sin"), 2, 16#64⟩, ⟨some (lit "_nope"), 2, 24#64⟩, ⟨some (lit "_puts"), 1, 32#64⟩] :=
  rfl

theorem slotOffset_classic :
    (bindRows classicProgram classicLazyProgram).map (slotOffset classicFile 0x4000) =
      [0x1010, 0x1018, 0x20] := by
  decide +kernel

theorem wellFormedBinds_classicFile :
    WellFormedBinds classicFile 0x4000 ⟨378, 17, 395, 11⟩ classicProgram classicLazyProgram where
  infos := by decide +kernel
  streams := ⟨by decide +kernel, by decide +kernel, by decide +kernel, by decide +kernel⟩
  slots row hrow := by
    rw [bindRows_classic] at hrow
    revert row
    decide +kernel
  apart := by
    rw [← List.pairwise_map (R := fun o o' => o + 8 ≤ o' ∨ o' + 8 ≤ o), slotOffset_classic]
    decide

/-- Mapped at `0x7000`: `sin` and `puts` are in their slots, the one between them is as in the file, and so
is the beginning of `__DATA`. -/
theorem loader64_doBind_classicFile :
    let E := { Env.plain with mmap := fun _ _ _ => some 0x7000#64 }
    ∃ c c' : MachContext, loader64 E classicFile (MachContext.zero fun _ => 0#8) = (0, c) ∧
      doBind smallHost c = some (0, c') ∧ load64 c'.mem 0x8010#64 = 3#64 ∧
      load64 c'.mem 0x8018#64 = 0x1234#64 ∧ load64 c'.mem 0x7020#64 = 2#64 ∧
      c'.mem 0x8000#64 = 0x11#8 := by
  intro E
  have hlibs : openLibraries smallHost (boundLibraries (dylibsOf (commands classicFile))) =
      [0x10#64, 0x20#64] := by decide +kernel
  have hwf : WellFormedImage classicFile 0x4000 0x6000 := by decide +kernel
  obtain ⟨c, c', hload, hbind, hslots, hrest, -⟩ := loader64_doBind E smallHost classicFile
    (fun _ => 0#8) (B := 0x7000#64) hwf (by decide +kernel)
    ⟨segmentsOf (commands classicFile), (commands classicFile).drop 3, by decide +kernel,
      by decide +kernel⟩
    (by decide +kernel) wellFormedBinds_classicFile (by decide) rfl (by decide)
    (by rw [hlibs]; decide)
  have hplaces := slotOffset_classic
  rw [bindRows_classic] at hslots hrest hplaces
  obtain ⟨hsin, hnope, hputs⟩ : slotOffset classicFile 0x4000 ⟨some (lit "_sin"), 2, 16#64⟩ = 0x1010 ∧
      slotOffset classicFile 0x4000 ⟨some (lit "_nope"), 2, 24#64⟩ = 0x1018 ∧
      slotOffset classicFile 0x4000 ⟨some (lit "_puts"), 1, 32#64⟩ = 0x20 := by
    simpa only [List.map_cons, List.cons.injEq, List.map_nil, and_true] using hplaces
  simp only [List.forall_mem_cons, hsin, hnope, hputs, hlibs] at hslots hrest
  obtain ⟨hsin, hnope, hputs, -⟩ := hslots
  have hdata := hrest 0x1000 (by decide) ⟨by decide, by decide, by decide, by simp⟩
  exact ⟨c, c', hload, hbind, hsin _ rfl, (hnope _ rfl).trans (by decide +kernel), hputs _ rfl,
    hdata.trans (by decide +kernel)⟩

end Maloader
