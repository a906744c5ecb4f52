import Maloader.Link.Program
import Maloader.Main.Linked

/-!
# From the program to the call

The file of a program is well formed by construction, and what `main` calls is the program.

* `mem_imageSegments_file`, `referenceImage_of_backs`, `image_eq_bytes`: the image of the file.
* `Program.Fits.wellFormedImage`, `hasPayload`, `wellFormedFile`: the loader's conditions, one by one.
* **`main_program`**: writing a program into a file, and running the loader on it.
-/

namespace Maloader

open ByteLib

namespace Program

variable {p : Program} {top : ℕ}

/-! ## The segments of the file -/

theorem isPagezero_segmentCommand (i : ℕ) (s : ProgramSegment) :
    (p.segmentCommand i s).isPagezero = !s.isPart := by
  rw [ProgramSegment.isPart, Bool.not_not]
  rfl

theorem Fits.mem_imageSegments_file (h : p.Fits top) {seg : SegmentCommand64} :
    seg ∈ imageSegments p.file ↔
      ∃ i s, p.segments[i]? = some s ∧ s.isPart ∧ seg = p.segmentCommand i s := by
  rw [imageSegments, h.segmentsOf_file.1, segmentCommands, List.mem_filter, List.mem_mapIdx]
  constructor
  · rintro ⟨⟨i, hi, rfl⟩, hpart⟩
    rw [isPagezero_segmentCommand, Bool.not_not] at hpart
    exact ⟨i, _, List.getElem?_eq_getElem hi, hpart, rfl⟩
  · rintro ⟨i, s, hs, hpart, rfl⟩
    obtain ⟨hi, rfl⟩ := List.getElem?_eq_some_iff.mp hs
    rw [isPagezero_segmentCommand, Bool.not_not]
    exact ⟨⟨i, hi, rfl⟩, hpart⟩

theorem mem_parts {s : ProgramSegment} : s ∈ p.parts ↔ ∃ i : ℕ, p.segments[i]? = some s ∧ s.isPart := by
  rw [parts, List.mem_filter, List.mem_iff_getElem?]
  simp

section Segment

variable (h : p.Fits top) {i : ℕ} {s : ProgramSegment} (hs : p.segments[i]? = some s)
include h hs

theorem Fits.hasAt_content : HasAt p.file (p.pieceOff (i + 5)) (p.content s) ∧
    p.pieceOff (i + 5) + s.filesize ≤ p.file.length ∧ p.pieceOff (i + 5) + s.filesize < 2 ^ 32 := by
  obtain ⟨hi, rfl⟩ := List.getElem?_eq_some_iff.mp hs
  have hlt : i + 5 < p.pieces.length := by
    simp only [pieces, List.length_cons, List.length_map]
    omega
  have hpiece : p.pieces[i + 5] = p.content p.segments[i] := by
    simp only [pieces, List.getElem_cons_succ, List.getElem_map]
  obtain ⟨hat, hle⟩ := h.hasAt_piece hlt
  have hsize := (pieceOff_add_le hlt).trans_lt h.size
  rw [hpiece] at hat hle hsize
  rw [length_content] at hle hsize
  exact ⟨hat, hle, hsize⟩

theorem Fits.toNat_segmentCommand : (p.segmentCommand i s).vmaddr.toNat = s.vmaddr ∧
    (p.segmentCommand i s).vmsize.toNat = s.vmsize ∧
    (p.segmentCommand i s).fileoff.toNat = p.pieceOff (i + 5) ∧
    (p.segmentCommand i s).filesize.toNat = s.filesize := by
  obtain ⟨-, hvmaddr, hvmsize⟩ := h.wide s (List.mem_of_getElem? hs)
  obtain ⟨-, -, hlt⟩ := h.hasAt_content hs
  simp only [segmentCommand, BitVec.toNat_ofNat]
  omega

end Segment

/-! ## The image -/

theorem Fits.wellFormedImage (h : p.Fits top) : WellFormedImage p.file p.base top := by
  obtain ⟨hmagic, hexec, hsized⟩ := h.header_file
  have hseg : ∀ seg ∈ imageSegments p.file, ∃ s ∈ p.parts, seg.vmaddr.toNat = s.vmaddr ∧
      seg.vmsize.toNat = s.vmsize ∧ seg.filesize.toNat = s.filesize ∧
        seg.fileoff.toNat + s.filesize ≤ p.file.length := by
    intro seg hseg
    obtain ⟨i, s, hs, hpart, rfl⟩ := h.mem_imageSegments_file.mp hseg
    obtain ⟨hvmaddr, hvmsize, hfileoff, hfilesize⟩ := h.toNat_segmentCommand hs
    refine ⟨s, mem_parts.mpr ⟨i, hs, hpart⟩, hvmaddr, hvmsize, hfilesize, ?_⟩
    rw [hfileoff]
    exact (h.hasAt_content hs).2.1
  have hmem : ∀ s ∈ p.parts, ∃ seg ∈ imageSegments p.file, seg.vmaddr.toNat = s.vmaddr ∧
      seg.vmsize.toNat = s.vmsize := by
    intro s hs
    obtain ⟨i, hs, hpart⟩ := mem_parts.mp hs
    obtain ⟨hvmaddr, hvmsize, -⟩ := h.toNat_segmentCommand hs
    exact ⟨_, h.mem_imageSegments_file.mpr ⟨i, s, hs, hpart, rfl⟩, hvmaddr, hvmsize⟩
  have htop := h.top_lt
  refine ⟨hmagic, hexec, hsized, fun seg hs => ?_, fun seg hs => ?_, fun seg hs => ?_,
    ⟨fun seg hs => ?_, ?_, fun seg hs => ?_, ?_⟩, h.span_le, h.base_ne, ?_⟩
  · obtain ⟨s, hs, hvmaddr, hvmsize, -⟩ := hseg seg hs
    obtain ⟨hpos, -, -, hle⟩ := h.part s hs
    refine ⟨fun hzero => ?_, by omega⟩
    rw [hzero] at hvmsize
    exact absurd hvmsize.symm (Nat.pos_iff_ne_zero.mp hpos)
  · obtain ⟨s, hs, -, hvmsize, hfilesize, -⟩ := hseg seg hs
    rw [hvmsize, hfilesize]
    exact (h.part s hs).2.1
  · obtain ⟨s, -, -, -, hfilesize, hle⟩ := hseg seg hs
    rwa [hfilesize]
  · obtain ⟨s, hs, hvmaddr, -⟩ := hseg seg hs
    rw [hvmaddr]
    exact (h.part s hs).2.2.1
  · obtain ⟨s, hs, hbase⟩ := h.base_mem
    obtain ⟨seg, hseg, hvmaddr, -⟩ := hmem s hs
    exact ⟨seg, hseg, hvmaddr.trans hbase⟩
  · obtain ⟨s, hs, hvmaddr, hvmsize, -⟩ := hseg seg hs
    rw [hvmaddr, hvmsize]
    exact (h.part s hs).2.2.2
  · obtain ⟨s, hs, htop⟩ := h.top_mem
    obtain ⟨seg, hseg, hvmaddr, hvmsize⟩ := hmem s hs
    exact ⟨seg, hseg, by rw [hvmaddr, hvmsize, htop]⟩
  · have hapart := List.pairwise_filter.mp h.apart
    rw [imageSegments, h.segmentsOf_file.1, segmentCommands, List.pairwise_filter,
      List.pairwise_iff_getElem]
    intro i j hi hj hij hpi hpj
    rw [List.length_mapIdx] at hi hj
    rw [List.getElem_mapIdx, isPagezero_segmentCommand, Bool.not_not] at hpi hpj
    rw [List.getElem_mapIdx, List.getElem_mapIdx]
    obtain ⟨hvmaddr, hvmsize, -⟩ := h.toNat_segmentCommand (List.getElem?_eq_getElem hi)
    obtain ⟨hvmaddr', hvmsize', -⟩ := h.toNat_segmentCommand (List.getElem?_eq_getElem hj)
    rw [hvmaddr, hvmsize, hvmaddr', hvmsize']
    exact List.pairwise_iff_getElem.mp hapart i j hi hj hij hpi hpj

/-- **Where a part is file-backed**, the image of the file is that of the program. -/
theorem Fits.referenceImage_of_backs (h : p.Fits top) {s : ProgramSegment} (hs : s ∈ p.parts) {o : ℕ}
    (ho : s.Backs p.base o) : referenceImage p.file p.base o = p.image o := by
  obtain ⟨i, hs, hpart⟩ := mem_parts.mp hs
  obtain ⟨hvmaddr, -, hfileoff, hfilesize⟩ := h.toNat_segmentCommand hs
  obtain ⟨hlo, hhi⟩ := ho
  have hbacks : (p.segmentCommand i s).Backs p.base o := by
    rw [SegmentCommand64.Backs, hvmaddr, hfilesize]
    exact ⟨hlo, hhi⟩
  have hk : o - (s.vmaddr - p.base) < s.filesize := by omega
  rw [referenceImage_of_backed h.wellFormedImage
    (h.mem_imageSegments_file.mpr ⟨i, s, hs, hpart, rfl⟩) hbacks, hvmaddr, hfileoff,
    byteAt_of_hasAt (h.hasAt_content hs).1 (by rwa [length_content])]
  have hbyte : byteAt (p.content s) (o - (s.vmaddr - p.base)) =
      p.image (s.vmaddr - p.base + (o - (s.vmaddr - p.base))) := by
    simp [byteAt, content, hk]
  rw [hbyte, Nat.add_sub_cancel' hlo]

theorem Fits.referenceImage_of_not_backs (h : p.Fits top) {o : ℕ}
    (ho : ∀ s ∈ p.parts, ¬ s.Backs p.base o) : referenceImage p.file p.base o = 0#8 := by
  refine referenceImage_of_not_backed h.wellFormedImage fun seg hseg hbacks => ?_
  obtain ⟨i, s, hs, hpart, rfl⟩ := h.mem_imageSegments_file.mp hseg
  obtain ⟨hvmaddr, -, -, hfilesize⟩ := h.toNat_segmentCommand hs
  rw [SegmentCommand64.Backs, hvmaddr, hfilesize] at hbacks
  exact ho s (mem_parts.mpr ⟨i, hs, hpart⟩) hbacks

theorem Fits.pageUp_le (h : p.Fits top) : pageUp (top - p.base) ≤ 2 ^ 64 := by
  have hspan := h.span_le
  rw [pageUp]
  omega

theorem Fits.image_eq_bytes (h : p.Fits top) {o : ℕ} (ho : o < pageUp (top - p.base))
    (hx : ∀ x ∈ p.payload.pointers, ¬ (x.1 ≤ o ∧ o < x.1 + 8)) : p.image o = p.bytes o := by
  have hn := h.pageUp_le
  have hlink : p.image o = p.bytes (0#64 + BitVec.ofNat 64 o).toNat := by
    refine applyWrites_of_not_inRange _ fun w hw hr => ?_
    obtain ⟨e, he, rfl⟩ := List.mem_map.mp hw
    obtain ⟨x, hxmem, hxe⟩ := ChainedPayload.exists_pointer h.payload he
    have hle := (h.payload.pairwise_fixups hn).2 e he
    have hin := (inRange_offset_iff 0#64 (by omega) (by omega) (by omega)).mp hr
    rw [hxe.offset] at hin
    exact hx x hxmem hin
  rw [hlink, BitVec.zero_add, BitVec.toNat_ofNat, Nat.mod_eq_of_lt (by omega)]

/-! ## The conditions of the loader -/

theorem Fits.chainedOf_file (h : p.Fits top) :
    chainedOf (commands p.file) = [p.fixupsCommand] ∧ fixupsOff p.file = p.pieceOff 0 := by
  have hchained : chainedOf (commands p.file) = [p.fixupsCommand] := by
    rw [h.commands_file]
    simp [chainedOf, Program.cmds, tableCommands, List.filterMap_map]
  refine ⟨hchained, ?_⟩
  rw [fixupsOff, hchained]
  rfl

theorem Fits.hasPayload (h : p.Fits top) :
    HasPayload p.file p.base (pageUp (top - p.base)) p.payload := by
  obtain ⟨hchained, hoff⟩ := h.chainedOf_file
  have himage := h.wellFormedImage
  refine ⟨?_, ?_, h.payload, fun i s hs => ?_, fun e he => ?_⟩
  · rw [hchained, hoff]
    rfl
  · rw [hoff]
    exact (h.hasAt_piece (i := 0) (Nat.succ_pos _)).1
  · obtain ⟨s', hs', hpart⟩ := h.recorded i s hs
    have hbase : (BitVec.ofNat 64 p.base).toNat = p.base := by
      rw [BitVec.toNat_ofNat, Nat.mod_eq_of_lt himage.base_lt]
    have hbase_ne : BitVec.ofNat 64 p.base ≠ 0#64 :=
      fun e => himage.base_ne (hbase.symm.trans (congrArg BitVec.toNat e))
    have hlt := himage.lt_top
    rw [mapped_iff himage hbase_ne (by omega) (recordedAt_referenceTable p.file p.base),
      h.segmentsOf_file.1]
    rw [Option.mem_def, List.getElem?_take] at hs'
    split_ifs at hs' with hi
    refine ⟨p.segmentCommand i s', ?_, by rw [isPagezero_segmentCommand, hpart]; decide⟩
    rw [Option.mem_def, List.getElem?_take, if_pos hi, segmentCommands, List.getElem?_mapIdx, hs']
    rfl
  · obtain ⟨x, hx, hxe⟩ := ChainedPayload.exists_pointer h.payload he
    obtain ⟨s, hs, hlo, hhi⟩ := h.backed x hx
    have hspells := ChainedPayload.spells_link h.payload h.pageUp_le
      (fun x => p.bytes x.toNat) 0#64 e he
    rw [← hspells]
    refine word64_congr fun i hi => ?_
    rw [hxe.offset]
    exact h.referenceImage_of_backs hs ⟨by omega, by omega⟩

theorem Fits.slotOffset_file (h : p.Fits top) {row : BindRegs} (hrow : row ∈ p.rows) :
    slotOffset p.file p.base row = p.slot row ∧ row.HasSlot p.file p.base := by
  obtain ⟨hsymbol, hnonneg, hne, s, hs, hpart, hle⟩ := h.slots row hrow
  obtain ⟨hvmaddr, hvmsize, -⟩ := h.toNat_segmentCommand hs
  have hget : (segmentsOf (commands p.file))[row.segment.toNat]? =
      some (p.segmentCommand row.segment.toNat s) := by
    rw [h.segmentsOf_file.1, segmentCommands, List.getElem?_mapIdx, hs]
    rfl
  have hslot : slotOffset p.file p.base row = p.slot row := by
    rw [slotOffset, hget, slot, hs, Option.elim_some, Option.elim_some, hvmaddr]
  refine ⟨hslot, hsymbol, hnonneg, ⟨_, hget, ?_, by rwa [hvmsize]⟩, by rwa [hslot]⟩
  rw [isPagezero_segmentCommand, hpart]
  decide

theorem Fits.tablesInside (h : p.Fits top) : TablesInside p.file := by
  have hpieces : 5 ≤ p.pieces.length := Nat.le_add_left 5 _
  obtain ⟨hcount, hfile⟩ := h.file_eq
  have hsymsLe := (h.hasAt_piece (i := 3) (by omega)).2
  have hsymtabs : symtabsOf (commands p.file) = [p.symtab] := by
    rw [h.commands_file]
    simp [symtabsOf, Program.cmds, tableCommands, List.filterMap_map]
  have hlength : (p.pieces[3]).length = nlist64Size := by
    simp [pieces, encodeNlist64, nlist64Size]
  refine ⟨?_, ?_, fun symtab hmem => ?_, fun fixups hmem => ?_⟩
  · have hle : p.pieceOff 3 + _ ≤ p.file.length := hsymsLe
    rw [pieceOff] at hle
    omega
  · rw [hfile]
    exact Executable.commandFits_file _
  · rw [hsymtabs] at hmem
    obtain rfl := List.mem_singleton.mp hmem
    refine ⟨?_, fun i hi => ?_⟩
    · rw [hlength] at hsymsLe
      exact hsymsLe
    · obtain rfl : i = 0 := Nat.lt_one_iff.mp hi
      have hstrx : (u32 p.file (p.pieceOff 3)).toNat = 0 := congrArg Nlist64.nStrx h.nlist64_file
      have hname := (h.hasAt_piece (i := 4) (by omega)).1
      rw [Nat.mul_zero, Nat.add_zero]
      exact .of_hasAt (by rwa [symtab, hstrx]) (List.mem_append_right _ (List.mem_singleton_self _))
  · rw [h.chainedOf_file.1] at hmem
    obtain rfl := List.mem_singleton.mp hmem
    obtain ⟨hat, hle⟩ := h.hasAt_piece (i := 0) (by omega)
    exact ChainedPayload.payloadInside_encode hat h.payload hle

theorem Fits.wellFormedFile (h : p.Fits top) : WellFormedFile p.file p.base top p.payload.chain
    [⟨p.infoCommand, p.bind, p.lazyBind⟩] := by
  have hpieces : 5 ≤ p.pieces.length := Nat.le_add_left 5 _
  have hrows : programsRows [⟨p.infoCommand, p.bind, p.lazyBind⟩] = p.rows :=
    List.flatMap_singleton _ _
  have hslot : ∀ row ∈ p.rows, slotOffset p.file p.base row = p.slot row := fun row hrow =>
    (h.slotOffset_file hrow).1
  refine ⟨h.wellFormedImage, h.tablesInside, ⟨_, _, h.commands_file, h.segmentsOf_file.2⟩, fun seg hseg htext => ?_,
    h.hasPayload.wellFormedFixups, ?_, fun b hb => ?_, ?_, ?_, ?_⟩
  · obtain ⟨i, s, hs, hpart, rfl⟩ := h.mem_imageSegments_file.mp hseg
    rw [(h.toNat_segmentCommand hs).1]
    exact h.text s (mem_parts.mpr ⟨i, hs, hpart⟩) (beq_iff_eq.mp htext)
  · rw [h.commands_file]
    simp [infosOf, Program.cmds, tableCommands, List.filterMap_map]
  · rw [List.mem_singleton.mp hb]
    exact ⟨(h.hasAt_piece (i := 1) (by omega)).1, rfl, (h.hasAt_piece (i := 2) (by omega)).1, rfl⟩
  · rw [hrows]
    exact fun row hrow => (h.slotOffset_file hrow).2
  · rw [hrows]
    refine h.slots_apart.imp_of_mem fun {row row'} hrow hrow' hap => ?_
    rwa [hslot row hrow, hslot row' hrow']
  · rw [hrows, h.hasPayload.fileFixups_eq]
    intro row hrow e he
    obtain ⟨x, hx, hxe⟩ := ChainedPayload.exists_pointer h.payload he
    rw [hslot row hrow, hxe.offset]
    exact h.slots_pointers row hrow x hx

/-! ## The call -/

/-- **Writing a program into a file, and running the loader on it**: `_main` is called over the image of
the program, wherever that is mapped, and with the arguments that were given. Every pointer of a chain
holds what it stands for, every slot of a row what the libraries of the program know as its symbol,
every other byte in the file-backed part of a segment is the program's, and the rest of the image is
zero. Nothing outside the image is written. The only report is the number of pointers to imports that
the host does not have. -/
theorem main_program (S : System) (m : Mem 64) {B : Addr} (filename : CString)
    (args : List CString) (h : p.Fits top) (hfile : S.file filename = some p.file) (hB : B ≠ 0#64)
    (hmap : S.env.mmap [] (BitVec.ofNat 64 p.base) (BitVec.ofNat 64 (pageUp (top - p.base))) = some B)
    (hfit : B.toNat + pageUp (top - p.base) ≤ 2 ^ 64) :
    let place (o : ℕ) := B + BitVec.ofNat 64 o
    let value (x : ℕ × Pointer) := x.2.value S.loaderEnv p.payload.imports B
    let missing := BitVec.ofNat 32 (p.payload.pointers.countP fun x => (value x).isNone)
    let pointerFree (o : ℕ) := ∀ x ∈ p.payload.pointers, ¬ (x.1 ≤ o ∧ o < x.1 + 8)
    let slotFree (o : ℕ) := ∀ row ∈ p.rows, ¬ (p.slot row ≤ o ∧ o < p.slot row + 8)
    ∃ d, main S (filename :: args) m = .called (place p.entry) (args.length + 1) (filename :: args)
        (if missing ≠ 0#32 then [.unresolvedChainedBinds missing] else []) d ∧
      (∀ x ∈ p.payload.pointers, ∀ v, value x = some v → load64 d.mem (place x.1) = v) ∧
      (∀ row ∈ p.rows, ∀ name v, row.symbol = some name →
        hostValue S.host (openLibraries S.host (boundLibraries p.libraries)) (dropUnderscore name) =
          some v → load64 d.mem (place (p.slot row)) = v) ∧
      (∀ s ∈ p.parts, ∀ o, s.Backs p.base o → pointerFree o → slotFree o →
        d.mem (place o) = p.bytes o) ∧
      (∀ o < pageUp (top - p.base), (∀ s ∈ p.parts, ¬ s.Backs p.base o) → slotFree o →
        d.mem (place o) = 0#8) ∧
      ∀ x, pageUp (top - p.base) ≤ (x - B).toNat → d.mem x = m x := by
  intro place value missing pointerFree slotFree
  have hup := le_pageUp (top - p.base)
  have hpayload := h.hasPayload
  have hes := hpayload.fileFixups_eq
  have hbit : determineBit p.file = some 64 := by
    have hmagic : u32 p.file 0 = mhMagic64 := h.header_file.1
    simp only [determineBit, hmagic]
    rfl
  have hopens : Opens S (filename :: args) p.file 64 := ⟨⟨_, _, rfl, hfile⟩, hbit⟩
  obtain ⟨d, hcalled, himage⟩ := main_eq_called (m := m) h.wellFormedFile hopens hB hmap hfit
  have hrows : programsRows [⟨p.infoCommand, p.bind, p.lazyBind⟩] = p.rows :=
    List.flatMap_singleton _ _
  have hdylibs : dylibsOf (commands p.file) = p.libraries := by
    rw [h.commands_file]
    simp [dylibsOf, Program.cmds, tableCommands, List.filterMap_map]
  have hentry : place p.entry ≠ 0#64 := by
    intro hzero
    have hnat := congrArg BitVec.toNat hzero
    have hlt := h.entry
    have hpos : B.toNat ≠ 0 := fun he => hB (BitVec.eq_of_toNat_eq he)
    simp only [place, BitVec.toNat_add, BitVec.toNat_ofNat] at hnat
    omega
  -- what neither a pointer nor a row covers
  have hrest : ∀ o < pageUp (top - p.base), pointerFree o → slotFree o →
      d.mem (place o) = referenceImage p.file p.base o := by
    intro o ho hpointers hslots
    refine himage.rest o ho (fun e he => ?_) fun row hrow => ?_
    · rw [hes] at he
      obtain ⟨x, hx, hxe⟩ := ChainedPayload.exists_pointer h.payload he
      rw [hxe.offset]
      exact hpointers x hx
    · rw [hrows] at hrow
      rw [(h.slotOffset_file hrow).1]
      exact hslots row hrow
  refine ⟨d, ?_, fun x hx v hv => ?_, fun row hrow name v hname hv => ?_,
    fun s hs o ho hpointers hslots => ?_, fun o ho hback hslots => ?_, himage.outside⟩
  · rw [hpayload.countP_unresolved S.loaderEnv B, h.fileEntry_file, Option.getD_some, if_neg hentry,
      List.nil_append, List.length_cons] at hcalled
    exact hcalled
  · have hload := hpayload.load64_pointer himage hx
    have hvalue : x.2.value S.loaderEnv p.payload.imports B = some v := hv
    rwa [hvalue, Option.getD_some] at hload
  · have hload := himage.rows row (hrows ▸ hrow) name hname
    rwa [hdylibs, hv, Option.getD_some, (h.slotOffset_file hrow).1] at hload
  · have ho' : o < pageUp (top - p.base) := by
      obtain ⟨-, hsize, hbase, htop⟩ := h.part s hs
      have hhi := ho.2
      omega
    rw [hrest o ho' hpointers hslots, h.referenceImage_of_backs hs ho,
      h.image_eq_bytes ho' hpointers]
  · have hpointers : pointerFree o := fun x hx hcover => by
      obtain ⟨s, hs, hlo, hhi⟩ := h.backed x hx
      exact hback s hs ⟨by omega, by omega⟩
    rw [hrest o ho hpointers hslots, h.referenceImage_of_not_backs hback]

end Program

/-- A page with 32 bytes in the file. -/
def sinSegment : ProgramSegment := ⟨lit "__TEXT" ++ List.replicate 10 0#8, 0x4000, 0x1000, 0x20⟩

/-- One segment with two pointers in chains, one pointer to `sin` behind them, and `_main` behind all. -/
def sinProgramFile : Program where
  base := 0x4000
  segments := [sinSegment]
  bytes o := BitVec.ofNat 8 o
  payload := sinPayload
  bind := slotProgram
  lazyBind := []
  libraries := [lit "libz"]
  entry := 0x18

theorem sinProgramFile_fits : sinProgramFile.Fits 0x5000 where
  size := by decide +kernel
  wide := by decide
  part := by decide
  base_mem := by decide
  top_mem := by decide
  top_lt := by decide
  span_le := by decide
  base_ne := by decide
  apart := by decide
  text := by decide
  libraries := by decide
  entry := by decide
  payload := sinPayload_fits
  recorded i s hs := by
    obtain rfl : i = 0 := Nat.lt_one_iff.mp (ChainedPayload.mem_of_segmentAt hs).1
    exact ⟨_, rfl, by decide⟩
  backed := by decide
  slots row hrow := by
    obtain rfl : row = ⟨some (lit "_sin"), 0, 16#64⟩ := List.mem_singleton.mp hrow
    exact ⟨by decide, by decide, by decide, _, rfl, by decide, by decide⟩
  slots_apart := List.pairwise_singleton _ _
  slots_pointers := by decide

/-- The system that has the file of `sinProgramFile` under every name. -/
def sinProgramSystem : System := { programSystem with file := fun _ => some sinProgramFile.file }

/-- Mapped at `0x7000`: a pointer to `0x7040`, one to five bytes past `sin`, one to `sin`, and the byte
at `_main`. -/
theorem main_program_sin :
    ∃ d, main sinProgramSystem [lit "prog", lit "-x"] (fun _ => 0#8) =
        .called 0x7018#64 2 [lit "prog", lit "-x"] [] d ∧
      load64 d.mem 0x7000#64 = 0x7040#64 ∧ load64 d.mem 0x7008#64 = 8#64 ∧
      load64 d.mem 0x7010#64 = 3#64 ∧ d.mem 0x7018#64 = 0x18#8 := by
  obtain ⟨d, hmain, hpointers, hslots, hbytes, -⟩ := Program.main_program sinProgramSystem (fun _ => 0#8)
    (lit "prog") [lit "-x"] sinProgramFile_fits (B := 0x7000#64) rfl (by decide) rfl (by decide)
  have hfirst := hpointers (0, .rebase 0x40) (by decide) 0x7040#64 (by decide +kernel)
  have hsecond := hpointers (8, .bind 0 5#8) (by decide) 8#64 (by decide +kernel)
  have hslot := hslots ⟨some (lit "_sin"), 0, 16#64⟩ List.mem_cons_self (lit "_sin") 3#64 rfl
    (by decide +kernel)
  have hbyte := hbytes sinSegment (by decide) 0x18 ⟨by decide, by decide⟩ (by decide) (by decide)
  have hmissing : (sinProgramFile.payload.pointers.countP fun x => (x.2.value
      sinProgramSystem.loaderEnv sinProgramFile.payload.imports 0x7000#64).isNone) = 0 := by
    decide +kernel
  dsimp only at hmain
  rw [hmissing] at hmain
  exact ⟨d, hmain, hfirst, hsecond, hslot, hbyte⟩

end Maloader
