import Maloader.Loader32.Spec
import Maloader.Main.Image

/-!
# A 32-bit executable at the call

What a well-formed 32-bit executable finds in memory when `main` calls it.

* `TablesInside32`: what the commands point at lies in the file.
* `slotOffset32`, `BindRegs.HasSlot32`, `WellFormedFile32`: the conditions on the file.
* `getElem?_segmentRecords`, `record_eq32`: where the rows of its bind tables point.
* `loader_wellFormed32`: loading it; `load64_bound_row`, `mem_bound_rows`: binding.
* **`main_image32`**: the image that is called.
-/

namespace Maloader

open ByteLib

/-! ## Files -/

/-- `sizeof` of the structures whose fields are read; the first two fields of the other ones. -/
def Command32.structSize : Command32 → ℕ
  | .segment _ => segmentCommandSize
  | .dyldInfo _ => 48
  | .symtab _ => 24
  | .loadDylib _ => 24
  | .other => 8

/-- The command at `p` lies in the file, with its section headers and the name of its library. -/
structure CommandInside32 (f : File) (p : ℕ) : Prop where
  structSize_le : p + (commandAt32 f p).structSize ≤ f.length
  advance_le : p + loaderAdvance32 f p ≤ f.length
  named : (loadCommandAt f p).cmd = lcLoadDylib → CStringInside f (p + (u32 f (p + 8)).toNat)

/-- The commands that `loader` comes to lie in the file, and so do the symbol tables. -/
structure TablesInside32 (f : File) : Prop where
  header : machHeaderSize ≤ f.length
  commands : ∀ p ∈ loaderOffsets32 f, CommandInside32 f p
  symtabs : ∀ symtab ∈ symtabsOf32 (commands32 f), symtab.Inside f nlistSize

/-- The image of a 32-bit executable: the part of the file that is copied, and zeros. -/
def textImage (f : File) (o : ℕ) : Byte := if o < textCopySize then byteAt f o else 0#8

/-- The offset of a row's slot in an image whose lowest address is that of `text`. -/
def slotOffset32 (f : File) (text : SegmentCommand) (row : BindRegs) : ℕ :=
  ((segmentsOf32 (commands32 f))[row.segment.toNat]?).elim 0 fun seg =>
    seg.vmaddr.toNat - text.vmaddr.toNat + row.offset.toNat

/-- The address of the last symbol named `_main` in an image of `text` at `B`. -/
def fileEntry32 (f : File) (text : SegmentCommand) (B : Addr) : Option Addr :=
  ((symtabsOf32 (commands32 f)).flatMap (mainSymbols32 f)).getLast?.map fun sym =>
    B + (sym.nValue.zeroExtend 64 - text.vmaddr.zeroExtend 64)

/-- A row with a symbol and a slot in the mapping, in a segment that is not recorded before `text` is. -/
structure BindRegs.HasSlot32 (row : BindRegs) (f : File) (text : SegmentCommand) : Prop where
  symbol : row.symbol ≠ none
  segment_nonneg : 0 ≤ row.segment
  segment : ∃ seg, (segmentsOf32 (commands32 f))[row.segment.toNat]? = some seg ∧ ¬ seg.isPagezero ∧
    text.vmaddr.toNat ≤ seg.vmaddr.toNat
  behind : text ∈ (segmentsOf32 (commands32 f)).take (row.segment.toNat + 1)
  slot_le : slotOffset32 f text row + 8 ≤ text.mapLength.toNat
  ne_zero : slotOffset32 f text row ≠ 0

/-- An executable with one `__TEXT` segment, whose tables lie in the file, and whose bind slots lie in the
mapping and apart. -/
structure WellFormedFile32 (f : File) (text : SegmentCommand) (tables : List BindPrograms) : Prop where
  executable : (machHeader f).filetype = mhExecute
  inside : TablesInside32 f
  first : ∃ (segs : List SegmentCommand) (others : List Command32),
    commands32 f = segs.map .segment ++ others ∧ segmentsOf32 others = []
  one : textsOf (commands32 f) = [text]
  base_ne : text.vmaddr ≠ 0#32
  fits : text.CopyFits
  copied : textCopySize ≤ f.length
  infos : infosOf32 (commands32 f) = tables.map BindPrograms.info
  streams : ∀ p ∈ tables, BindStreams f p.info p.bind p.lazyBind
  slots : ∀ row ∈ programsRows tables, row.HasSlot32 f text
  apart : (programsRows tables).Pairwise fun row row' =>
    slotOffset32 f text row + 8 ≤ slotOffset32 f text row' ∨
      slotOffset32 f text row' + 8 ≤ slotOffset32 f text row

/-! ## Records -/

theorem getElem?_segmentRecords (calls : List MmapCall) (k : ℕ) (segs : List SegmentCommand) (i : ℕ) :
    (segmentRecords calls k segs)[i]? = segs[i]?.map (recordAt32 (textPlace
      (calls.take (k + (segs.take (i + 1)).countP SegmentCommand.isText)))) := by
  induction segs generalizing k i with
  | nil => rfl
  | cons seg segs ih =>
    have hcount : ∀ n, k + ((seg :: segs).take (n + 1)).countP SegmentCommand.isText =
        (if seg.isText then k + 1 else k) + (segs.take n).countP SegmentCommand.isText := by
      intro n
      rw [List.take_succ_cons, List.countP_cons]
      split_ifs <;> omega
    rw [segmentRecords, hcount]
    cases i with
    | zero => simp
    | succ i => rw [List.getElem?_cons_succ, List.getElem?_cons_succ, ih]

variable {f : File} {text : SegmentCommand} {tables : List BindPrograms} {B : Addr}

theorem segmentsOf32_append (segs : List SegmentCommand) {others : List Command32}
    (hothers : segmentsOf32 others = []) :
    segmentsOf32 (segs.map .segment ++ others) = segs := by
  rw [segmentsOf32] at hothers ⊢
  rw [List.filterMap_append, hothers, List.append_nil, List.filterMap_map]
  exact List.filterMap_some

theorem WellFormedFile32.isText (h : WellFormedFile32 f text tables) : text.isText := by
  have hmem : text ∈ textsOf (commands32 f) := h.one ▸ List.mem_singleton_self text
  obtain ⟨cmd, -, hcmd⟩ := List.mem_filterMap.mp hmem
  cases cmd with
  | segment seg =>
    obtain ⟨htext, hseg⟩ := Option.ite_none_right_eq_some.mp hcmd
    exact Option.some.inj hseg ▸ htext
  | _ => cases hcmd

theorem WellFormedFile32.eq_text (h : WellFormedFile32 f text tables) {seg : SegmentCommand}
    (hseg : seg ∈ segmentsOf32 (commands32 f)) (htext : seg.isText) : seg = text := by
  obtain ⟨cmd, hcmd, hsegment⟩ := List.mem_filterMap.mp hseg
  cases cmd with
  | segment s =>
    obtain rfl := Option.some.inj hsegment
    have hmem : s ∈ textsOf (commands32 f) := List.mem_filterMap.mpr ⟨_, hcmd, if_pos htext⟩
    rw [h.one] at hmem
    exact List.mem_singleton.mp hmem
  | _ => cases hsegment

theorem toNat_zeroExtend (v : BitVec 32) : (v.zeroExtend 64).toNat = v.toNat :=
  BitVec.toNat_setWidth_of_le (by decide)

theorem zeroExtend_ne_zero {v : BitVec 32} (h : v ≠ 0#32) : v.zeroExtend 64 ≠ 0#64 := by
  intro he
  have hzero := congrArg BitVec.toNat he
  rw [toNat_zeroExtend] at hzero
  exact h (BitVec.eq_of_toNat_eq hzero)

/-- **A row's record points at its slot** in the mapping. -/
theorem record_eq32 (h : WellFormedFile32 f text tables) (hB : B ≠ 0#64)
    (hfit : B.toNat + text.mapLength.toNat ≤ 2 ^ 64) {t : SegmentTable} {call : MmapCall}
    (hcall : (call.base, call.addr) = (B, text.vmaddr.zeroExtend 64))
    (ht : t.recs = (segmentRecords [call] 0 (segmentsOf32 (commands32 f))).take machLoaderMaxSegments)
    {row : BindRegs} (hlt : row.segment < 16) (hrow : row.HasSlot32 f text) :
    row.record t = ⟨row.symbol, B + BitVec.ofNat 64 (slotOffset32 f text row)⟩ := by
  obtain ⟨seg, hseg, hp, hbase⟩ := hrow.segment
  have hnonneg := hrow.segment_nonneg
  have hle := hrow.slot_le
  have hslot : slotOffset32 f text row =
      seg.vmaddr.toNat - text.vmaddr.toNat + row.offset.toNat := by
    rw [slotOffset32, hseg]
    rfl
  have hplace : textPlace ([call].take (0 + ((segmentsOf32 (commands32 f)).take
      (row.segment.toNat + 1)).countP SegmentCommand.isText)) = (B, text.vmaddr.zeroExtend 64) := by
    have hpos : 0 < ((segmentsOf32 (commands32 f)).take (row.segment.toNat + 1)).countP
        SegmentCommand.isText := List.countP_pos_iff.mpr ⟨text, hrow.behind, h.isText⟩
    rw [Nat.zero_add, List.take_of_length_le (by simpa using hpos), ← hcall]
    rfl
  have hv := zeroExtend_ne_zero h.base_ne
  have hsub : seg.vmaddr.zeroExtend 64 - text.vmaddr.zeroExtend 64 =
      BitVec.ofNat 64 (seg.vmaddr.toNat - text.vmaddr.toNat) := by
    have hlt := seg.vmaddr.isLt
    have hlt' := text.vmaddr.isLt
    apply BitVec.eq_of_toNat_eq
    rw [BitVec.toNat_sub, toNat_zeroExtend, toNat_zeroExtend, BitVec.toNat_ofNat]
    omega
  have hmapped : (recordAt32 (B, text.vmaddr.zeroExtend 64) seg).mappedAddr =
      B + BitVec.ofNat 64 (seg.vmaddr.toNat - text.vmaddr.toNat) := by
    rw [recordAt32]
    dsimp only
    by_cases htext : seg.isText
    · rw [if_neg hp, if_pos htext, h.eq_text (List.mem_of_getElem? hseg) htext, Nat.sub_self,
        BitVec.add_zero]
    · rw [if_neg hp, if_neg htext, if_pos ⟨hB, hv⟩, hsub]
  have hne : B + BitVec.ofNat 64 (seg.vmaddr.toNat - text.vmaddr.toNat) ≠ 0#64 := by
    intro he
    have hnat := congrArg BitVec.toNat he
    have hBnat : B.toNat ≠ 0 := fun h0 => hB (BitVec.eq_of_toNat_eq h0)
    rw [BitVec.toNat_add, BitVec.toNat_ofNat, BitVec.toNat_ofNat] at hnat
    omega
  have hrec : t.recs[row.segment.toNat]? = some (recordAt32 (B, text.vmaddr.zeroExtend 64) seg) := by
    have hmax : row.segment.toNat < machLoaderMaxSegments := by
      rw [machLoaderMaxSegments]
      omega
    rw [ht, List.getElem?_take_of_lt hmax, getElem?_segmentRecords, hseg, hplace, Option.map_some]
  rw [BindRegs.record, SegmentTable.locate, hrec, Option.filter_some,
    if_pos (by simp [hnonneg, hmapped, hne]), Option.elim_some, hmapped, hslot, BitVec.add_assoc,
    BitVec.ofNat_add, BitVec.ofNat_toNat, BitVec.setWidth_eq]

/-! ## Loading -/

theorem others_commands32 {segs : List SegmentCommand} {others : List Command32}
    (hfirst : commands32 f = segs.map .segment ++ others) :
    infosOf32 (commands32 f) = infosOf32 others ∧ dylibsOf32 (commands32 f) = dylibsOf32 others ∧
      symtabsOf32 (commands32 f) = symtabsOf32 others := by
  have hnone : ∀ {α : Type} (g : Command32 → Option α), (∀ seg, g (.segment seg) = none) →
      (commands32 f).filterMap g = others.filterMap g := by
    intro α g hg
    have hnil : segs.filterMap (g ∘ Command32.segment) = [] :=
      List.filterMap_eq_nil_iff.mpr fun seg _ => hg seg
    rw [hfirst, List.filterMap_append, List.filterMap_map, hnil, List.nil_append]
  exact ⟨hnone _ fun _ => rfl, hnone _ fun _ => rfl, hnone _ fun _ => rfl⟩

/-- **Loading a well-formed file** copies its beginning into one mapping and records the rows of its bind
tables at their slots. -/
theorem loader_wellFormed32 (E : Env) (m : Mem 64) (h : WellFormedFile32 f text tables) (hB : B ≠ 0#64)
    (hmap : E.mmap [] (text.vmaddr.zeroExtend 64) text.mapLength = some B)
    (hfit : B.toNat + text.mapLength.toNat ≤ 2 ^ 64) :
    ∃ c, loader E f (MachContext.zero m) = some (-1, c) ∧
      (c.imgAddr, c.vAddr) = (B, text.vmaddr.zeroExtend 64) ∧
      c.dList = dylibsOf32 (commands32 f) ∧ c.entryPoint = fileEntry32 f text B ∧
      c.chainedUnresolvedBindCount = 0#32 ∧
      c.mem = memcpy (zeroFill m B text.mapLength.toNat) B f 0 textCopySize ∧
      c.bList = (programsRows tables).map (BindRegs.record c.segments) ∧
      ∀ row ∈ programsRows tables,
        row.record c.segments = ⟨row.symbol, B + BitVec.ofNat 64 (slotOffset32 f text row)⟩ := by
  obtain ⟨c, hload, hmmaps, hplace, hmem⟩ := loader_oneText h.executable h.one hmap m
  obtain ⟨segs, others, hfirst, hothers⟩ := h.first
  obtain ⟨d, p, hplaced, hzero, hrecs, rfl⟩ :=
    loader_segmentsFirst E f h.executable hfirst hothers hload
  obtain ⟨hinfos, hdylibs, hsymtabs⟩ := others_commands32 hfirst
  have hsegs : segmentsOf32 (commands32 f) = segs := by
    rw [hfirst, segmentsOf32_append segs hothers]
  obtain ⟨hdlist, hblist, hentry⟩ := tables_withTables32 E f hzero others
  have hcount : d.chainedUnresolvedBindCount = 0#32 := by rw [hzero]; rfl
  have hplace : (d.imgAddr, d.vAddr) = (B, text.vmaddr.zeroExtend 64) := hplace
  have hmmaps : d.mmaps = [⟨text.vmaddr.zeroExtend 64, text.mapLength, some B⟩] := hmmaps
  have hrows : (infosOf32 others).flatMap (dyldInfoRecords E f d.segments) =
      (programsRows tables).map (BindRegs.record d.segments) := by
    rw [← hinfos, h.infos, List.flatMap_map, programsRows, List.map_flatMap]
    exact List.flatMap_congr fun p hp => (h.streams p hp).dyldInfoRecords_eq E _
  refine ⟨_, hload, hplace, hdlist.trans hdylibs.symm, hentry.trans ?_, hcount, hmem,
    hblist.trans hrows, fun row hrow => ?_⟩
  · unfold entryOf32
    rw [fileEntry32, hsymtabs, (Prod.mk.inj hplace).1, (Prod.mk.inj hplace).2]
  · obtain ⟨p, -, hp⟩ := List.mem_flatMap.mp hrow
    rw [hmmaps, ← hsegs] at hrecs
    exact record_eq32 h hB hfit (by rfl) hrecs (segment_lt_of_mem_bindRows hp) (h.slots row hrow)

/-! ## Binding -/

section Binding

variable {H : Host} {c : MachContext} {rows : List BindRegs} {slot : BindRegs → ℕ} {size : ℕ}
  (hblist : c.bList = rows.map (BindRegs.record c.segments))
  (hrecord : ∀ row ∈ rows, row.record c.segments = ⟨row.symbol, B + BitVec.ofNat 64 (slot row)⟩)
  (hle : ∀ row ∈ rows, slot row + 8 ≤ size) (hfit : B.toNat + size ≤ 2 ^ 64)
include hblist hrecord hle hfit

theorem mem_bound_rows {x : Addr}
    (hx : ∀ row ∈ rows, ¬ (slot row ≤ (x - B).toNat ∧ (x - B).toNat < slot row + 8)) :
    (c.bound H).mem x = c.mem x := by
  rw [mem_bound, hblist]
  refine applyWrites_bindWrites_of_not_inRange H (fun r hr _ hin => ?_) _ _
  obtain ⟨row, hrow, rfl⟩ := List.mem_map.mp hr
  have hslot := hle row hrow
  rw [hrecord row hrow, ← add_ofNat_toNat_sub B x,
    inRange_offset_iff B (BitVec.isLt _) (by omega) (by omega)] at hin
  exact hx row hrow hin

theorem load64_bound_row (himg : c.imgAddr = B)
    (hapart : rows.Pairwise fun row row' => slot row + 8 ≤ slot row' ∨ slot row' + 8 ≤ slot row)
    {row : BindRegs} (hrow : row ∈ rows) (hpos : slot row ≠ 0) {n : CString}
    (hn : row.symbol = some n) :
    load64 (c.bound H).mem (B + BitVec.ofNat 64 (slot row)) =
      (hostValue H (openLibraries H (boundLibraries c.dList)) (dropUnderscore n)).getD
        (load64 c.mem (B + BitVec.ofNat 64 (slot row))) := by
  have hslot := hle row hrow
  have hslots : c.bList.Pairwise fun r r' => SlotsApart 8 r.address r'.address := by
    rw [hblist, List.pairwise_map]
    refine List.Pairwise.imp_of_mem (fun {row row'} hrow hrow' hd => ?_) hapart
    have hslot := hle row hrow
    have hslot' := hle row' hrow'
    rw [hrecord row hrow, hrecord row' hrow']
    exact slotsApart_offset B (by omega) (by omega) (by norm_num) hd
  have haddr : (row.record c.segments).address = B + BitVec.ofNat 64 (slot row) :=
    congrArg BindInfo.address (hrecord row hrow)
  have hmem : row.record c.segments ∈ c.bList := by
    rw [hblist]
    exact List.mem_map_of_mem hrow
  have habove : c.imgAddr < (row.record c.segments).address := by
    rw [himg, haddr, BitVec.lt_def, BitVec.toNat_add, BitVec.toNat_ofNat,
      Nat.mod_eq_of_lt (a := slot row) (by omega), Nat.mod_eq_of_lt (by omega)]
    omega
  have hvalue := load64_applyWrites_bindWrites H hslots hmem (n := n) hn habove
    (openLibraries H (boundLibraries c.dList)) c.mem
  rwa [haddr] at hvalue

end Binding

/-! ## The call -/

theorem view_textCopy (m : Mem 64) {size o : ℕ} (ho : o < size) (hsize : size ≤ 2 ^ 64) :
    memcpy (zeroFill m B size) B f 0 textCopySize (B + BitVec.ofNat 64 o) = textImage f o := by
  have hoff := toNat_add_sub_self B (i := o) (by omega)
  have hin : ∀ n, InRange B n (B + BitVec.ofNat 64 o) ↔ o < n := fun n => by rw [InRange, hoff]
  rw [textImage, memcpy]
  split_ifs with hcopy
  · rw [overlay_of_inRange ((hin _).mpr hcopy), hoff, Nat.zero_add]
  · rw [overlay_of_not_inRange (mt (hin _).mp hcopy), zeroFill, overlay_of_inRange ((hin _).mpr ho)]

/-- **What is called** for a 32-bit executable: the beginning of the file as one piece, in which the slot
of a row of a bind table holds what the last library that knows its symbol says; zeros behind it, and
nothing outside the mapping is written. The loader's result is reported as a failure every time; besides
it at most a missing `_main`. -/
theorem main_image32 (S : System) (argv : List CString) (m : Mem 64)
    (h : WellFormedFile32 f text tables) (hopens : Opens S argv f 32) (hB : B ≠ 0#64)
    (hmap : S.env.mmap [] (text.vmaddr.zeroExtend 64) text.mapLength = some B)
    (hfit : B.toNat + text.mapLength.toNat ≤ 2 ^ 64) :
    let rows := programsRows tables
    let slot := slotOffset32 f text
    let libraries := openLibraries S.host (boundLibraries (dylibsOf32 (commands32 f)))
    let entry := (fileEntry32 f text B).getD 0#64
    ∃ d, main S argv m = .called entry argv.length argv
        (.loaderFailed 32 (-1) :: if entry = 0#64 then [.noEntryPoint] else []) d ∧
      (∀ row ∈ rows, ∀ name, row.symbol = some name →
        load64 d.mem (B + BitVec.ofNat 64 (slot row)) =
          (hostValue S.host libraries (dropUnderscore name)).getD (word64 (textImage f) (slot row))) ∧
      (∀ o < text.mapLength.toNat,
        (∀ row ∈ rows, ¬ (slot row ≤ o ∧ o < slot row + 8)) →
        d.mem (B + BitVec.ofNat 64 o) = textImage f o) ∧
      ∀ x, text.mapLength.toNat ≤ (x - B).toNat → d.mem x = m x := by
  intro rows slot libraries entry
  have hsize := text.mapLength.isLt
  obtain ⟨c, hload, hplace, hdlist, hentry, hcount, hmem, hblist, hrecord⟩ :=
    loader_wellFormed32 S.loaderEnv m h hB hmap hfit
  obtain ⟨himg, hv⟩ := Prod.mk.inj hplace
  have hle : ∀ row ∈ rows, slot row + 8 ≤ text.mapLength.toNat := fun row hrow =>
    (h.slots row hrow).slot_le
  have hrun : runLoader S.loaderEnv f 32 (MachContext.zero m) = some (-1, c) := hload
  have hnamed : ¬ NamelessBind S.host c := by
    rintro ⟨-, r, hr, hnameless⟩
    rw [hblist] at hr
    obtain ⟨row, hrow, rfl⟩ := List.mem_map.mp hr
    exact (h.slots row hrow).symbol hnameless.2
  have hwarn : loadWarnings 32 (-1) c =
      .loaderFailed 32 (-1) :: if entry = 0#64 then [.noEntryPoint] else [] := by
    have hbase : text.vmaddr.zeroExtend 64 ≠ 0#64 := zeroExtend_ne_zero h.base_ne
    rw [loadWarnings, himg, hv, MachContext.entry, hentry, hcount, if_pos (by decide),
      if_neg (by simp [hB, hbase]), if_neg (not_not.mpr rfl), List.append_nil, List.append_nil,
      List.singleton_append]
  have hcalled := (handOver_eq argv hrun).2 hnamed
  rw [← hopens.main_eq, hwarn, MachContext.entry, hentry] at hcalled
  have hold : ∀ o < text.mapLength.toNat, c.mem (B + BitVec.ofNat 64 o) = textImage f o :=
    fun o ho => by rw [hmem, view_textCopy m ho hsize.le]
  refine ⟨c.bound S.host, hcalled, fun row hrow name hname => ?_, fun o ho hrows => ?_, fun x hx => ?_⟩
  · have hslot := hle row hrow
    have hword : load64 c.mem (B + BitVec.ofNat 64 (slot row)) = word64 (textImage f) (slot row) := by
      rw [load64_eq_word64]
      exact word64_congr fun i hi => hold _ (by omega)
    rw [load64_bound_row hblist hrecord hle hfit himg h.apart hrow (h.slots row hrow).ne_zero hname,
      hdlist, hword]
  · rw [mem_bound_rows hblist hrecord hle hfit (by rwa [toNat_add_sub_self B (by omega)]), hold o ho]
  · have hout : ∀ n ≤ text.mapLength.toNat, ¬ InRange B n x := fun n hn hin => by
      unfold InRange at hin
      omega
    have hcopy := (textCopySize_le_mapLength_iff text).mpr h.fits
    rw [mem_bound_rows hblist hrecord hle hfit fun row hrow hin => ?_, hmem, memcpy,
      overlay_of_not_inRange (hout _ hcopy), zeroFill, overlay_of_not_inRange (hout _ le_rfl)]
    have hslot : slotOffset32 f text row + 8 ≤ _ := hle row hrow
    omega

/-- `__TEXT` with a pointer to `sin` sixteen bytes into it, and `_main` at `0x4020`. -/
def slotFile32 : File :=
  encodeHeader32 3 ++ encodeSegment segText 0x4000 0x1000 0 0x1000 ++ encodeDyldInfo 156 9 165 0 ++
    encodeSymtab 165 1 177 ++ encodeProgram slotProgram ++ encodeNlist 0 0x4020 ++
      (lit "_main" ++ [0#8]) ++ List.replicate 0x3000 0#8

/-- The segment of `slotFile32`. -/
def slotText32 : SegmentCommand := segmentCommand slotFile32 machHeaderSize

theorem le_length_slotFile32 : textCopySize ≤ slotFile32.length := by
  rw [slotFile32, List.length_append, List.length_replicate, textCopySize]
  omega

theorem tablesInside32_slotFile32 : TablesInside32 slotFile32 where
  header := le_trans (by decide) le_length_slotFile32
  commands p hp := by
    have hoffsets : loaderOffsets32 slotFile32 = [28, 84, 132] := by decide +kernel
    have hnear : p + (commandAt32 slotFile32 p).structSize ≤ textCopySize ∧
        p + loaderAdvance32 slotFile32 p ≤ textCopySize ∧
        (loadCommandAt slotFile32 p).cmd ≠ lcLoadDylib := by
      rw [hoffsets] at hp
      revert p
      decide +kernel
    exact ⟨hnear.1.trans le_length_slotFile32, hnear.2.1.trans le_length_slotFile32,
      fun hcmd => absurd hcmd hnear.2.2⟩
  symtabs symtab hsymtab := by
    have hsymtabs : symtabsOf32 (commands32 slotFile32) = [⟨165, 1, 177⟩] := by decide +kernel
    rw [hsymtabs] at hsymtab
    obtain rfl := List.mem_singleton.mp hsymtab
    exact ⟨le_trans (by decide) le_length_slotFile32, by decide +kernel⟩

theorem wellFormedFile32_slotFile32 :
    WellFormedFile32 slotFile32 slotText32 [⟨⟨156, 9, 165, 0⟩, slotProgram, []⟩] where
  executable := by decide +kernel
  inside := tablesInside32_slotFile32
  first := ⟨segmentsOf32 (commands32 slotFile32), (commands32 slotFile32).tail, by decide +kernel,
    by decide +kernel⟩
  one := by decide +kernel
  base_ne := by decide +kernel
  fits := by decide +kernel
  copied := le_length_slotFile32
  infos := by decide +kernel
  streams p hp := by
    obtain rfl := List.mem_singleton.mp hp
    exact ⟨by decide +kernel, by decide +kernel, by decide +kernel, by decide +kernel⟩
  slots row hrow := by
    obtain rfl : row = ⟨some (lit "_sin"), 0, 16#64⟩ := List.mem_singleton.mp hrow
    exact {
      symbol := by decide
      segment_nonneg := by decide
      segment := ⟨slotText32, by decide +kernel, by decide +kernel, le_rfl⟩
      behind := by decide +kernel
      slot_le := by decide +kernel
      ne_zero := by decide +kernel }
  apart := List.pairwise_singleton _ _

/-- The system that has `slotFile32` under every name and maps at `0x7000`. -/
def slotSystem32 : System where
  env := { Env.plain with mmap := fun _ _ _ => some 0x7000#64 }
  host := smallHost
  file _ := some slotFile32

/-- `_main` is called at `0x7020` with a pointer to `sin` in the slot, after the report that loading
failed. -/
theorem main_image32_slotFile32 :
    ∃ d, main slotSystem32 [lit "prog"] (fun _ => 0#8) =
        .called 0x7020#64 1 [lit "prog"] [.loaderFailed 32 (-1)] d ∧
      load64 d.mem 0x7010#64 = 3#64 ∧ d.mem 0x7000#64 = 0xce#8 := by
  have hopens : Opens slotSystem32 [lit "prog"] slotFile32 32 :=
    ⟨⟨_, _, rfl, rfl⟩, by decide +kernel⟩
  have hlength : slotText32.mapLength = 0x4000#64 := by decide +kernel
  obtain ⟨d, hmain, hrows, hrest, -⟩ := main_image32 slotSystem32 _ (fun _ => 0#8)
    wellFormedFile32_slotFile32 hopens (B := 0x7000#64) (by decide) rfl (by rw [hlength]; decide)
  have hentry : fileEntry32 slotFile32 slotText32 0x7000#64 = some 0x7020#64 := by decide +kernel
  have hlibs : openLibraries slotSystem32.host (boundLibraries (dylibsOf32 (commands32 slotFile32))) =
      [0x10#64, 0x20#64] := by decide +kernel
  have hoff : slotOffset32 slotFile32 slotText32 ⟨some (lit "_sin"), 0, 16#64⟩ = 16 := by decide +kernel
  have hslot := hrows ⟨some (lit "_sin"), 0, 16#64⟩ List.mem_cons_self (lit "_sin") rfl
  have hmagic := hrest 0 (by rw [hlength]; decide) fun row hrow => by
    obtain rfl : row = ⟨some (lit "_sin"), 0, 16#64⟩ := List.mem_singleton.mp hrow
    rw [hoff]
    decide
  rw [hlibs, hoff] at hslot
  rw [hentry] at hmain
  exact ⟨d, hmain, hslot, hmagic.trans (by decide +kernel)⟩

end Maloader
