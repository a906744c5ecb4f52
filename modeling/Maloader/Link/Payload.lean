import Maloader.Lib.Records
import Maloader.Link.Commands
import Maloader.Link.Pointers
import Maloader.Loader.Inside

/-!
# Writing the payload of chained fixups

The payload that describes the chains of an image: a header, the starts of the chains in each segment,
the imports, and their names.

* `ChainedSegment`, `ChainedPayload`: what is to be described; `ChainedPayload.encode`: the payload.
* `ChainedPayload.Fits`: the conditions on it.
* `chainedFixupsHeader_encode`, `chainedSegCount_encode`, `chainedStarts_encode`,
  **`importAddress_encode`**: what the loader reads in it; `payloadInside_encode`: all of it is there.
-/

namespace Maloader

open ByteLib

/-! ## Payloads -/

/-- The pointers of a segment, page by page. -/
structure ChainedSegment where
  offset : ℕ
  pages : List (List (ℕ × Pointer))

/-- The names of the imports, and the segments; `none` for a segment without chains. -/
structure ChainedPayload where
  imports : List CString
  segments : List (Option ChainedSegment)

/-- `MAL_DYLD_CHAINED_PTR_START_NONE`, or the offset of the first pointer. -/
def encodePageStart (page : List (ℕ × Pointer)) : ℕ := page.head?.elim 0xFFFF Prod.fst

/-- The starts of a segment, with a spare word behind them. -/
def ChainedSegment.encode (s : ChainedSegment) : File :=
  leBytes 4 (24 + 2 * s.pages.length) ++ (leBytes 2 0x1000 ++ (leBytes 2 6 ++ (leBytes 8 s.offset ++
    (leBytes 4 0 ++ (leBytes 2 s.pages.length ++ ((s.pages.map encodePageStart).flatMap (leBytes 2) ++
      leBytes 2 0))))))

theorem ChainedSegment.length_encode (s : ChainedSegment) : s.encode.length = 24 + 2 * s.pages.length := by
  simp only [ChainedSegment.encode, List.length_append, length_leBytes, length_flatMap_leBytes,
    List.length_map]
  omega

namespace ChainedPayload

variable (P : ChainedPayload)

/-- The starts of each segment. -/
def startsBlobs : List File := P.segments.map fun s => s.elim [] ChainedSegment.encode

/-- `seg_info_offset`. -/
def segInfoOffset (i : ℕ) : ℕ :=
  (P.segments.getD i none).elim 0 fun _ => 4 + 4 * P.segments.length + blobOffset P.startsBlobs i

/-- `dyld_chained_starts_in_image`. -/
def encodeStarts : File :=
  leBytes 4 P.segments.length ++ (((List.range P.segments.length).map P.segInfoOffset).flatMap (leBytes 4) ++
    P.startsBlobs.flatten)

/-- The names with their NULs. -/
def names : List File := P.imports.map (· ++ [0#8])

/-- The table of imports stands behind the starts. -/
def importsOff : ℕ := 28 + P.encodeStarts.length

/-- The names stand behind the table of imports. -/
def symbolsOff : ℕ := P.importsOff + 4 * P.imports.length

/-- Each import with the place of its name. -/
def encodeImports : File :=
  ((List.range P.imports.length).map fun i => blobOffset P.names i * 2 ^ 9).flatMap (leBytes 4)

/-- Header, starts, imports, names. -/
def encode : File :=
  leBytes 4 0 ++ (leBytes 4 28 ++ (leBytes 4 P.importsOff ++ (leBytes 4 P.symbolsOff ++
    (leBytes 4 P.imports.length ++ (leBytes 4 1 ++ (leBytes 4 0 ++
      (P.encodeStarts ++ (P.encodeImports ++ P.names.flatten))))))))

/-- A pointer refers to one of the imports. -/
def Refers : Pointer → Prop
  | .rebase _ => True
  | .bind ordinal _ => ordinal < P.imports.length

instance instDecidableRefers : (x : Pointer) → Decidable (P.Refers x)
  | .rebase _ => inferInstanceAs (Decidable True)
  | .bind ordinal _ => inferInstanceAs (Decidable (ordinal < P.imports.length))

/-- The payload fits into its fields, and describes an image of `n` bytes. -/
structure Fits (n : ℕ) : Prop where
  size : P.encode.length < 2 ^ 32
  symbols : P.names.flatten.length < 2 ^ 23
  named : ∀ name ∈ P.imports, 0#8 ∉ name
  inImage : ∀ s, some s ∈ P.segments → s.offset + s.pages.length * 0x1000 ≤ n
  counted : ∀ s, some s ∈ P.segments → s.offset < 2 ^ 64 ∧ s.pages.length < 2 ^ 16
  linked : ∀ s, some s ∈ P.segments → ∀ page ∈ s.pages, LinkedPage page ∧ ∀ x ∈ page, P.Refers x.2
  disjoint : (P.segments.filterMap id).Pairwise fun s s' =>
    s.offset + s.pages.length * 0x1000 ≤ s'.offset ∨ s'.offset + s'.pages.length * 0x1000 ≤ s.offset

/-! ## What the loader reads -/

section Reads

variable {P} {f : File} {dataoff n : ℕ} (hat : HasAt f dataoff P.encode) (hfits : P.Fits n)

theorem length_encodeImports : P.encodeImports.length = 4 * P.imports.length := by
  rw [encodeImports, length_flatMap_leBytes, List.length_map, List.length_range]

theorem length_encode : P.encode.length = P.symbolsOff + P.names.flatten.length := by
  simp only [encode, List.length_append, length_leBytes, length_encodeImports, symbolsOff, importsOff]
  omega

theorem parts (hat : HasAt f dataoff P.encode) :
    leNat (bytesAt f (dataoff + 4) 4) = 28 % 256 ^ 4 ∧
    leNat (bytesAt f (dataoff + 8) 4) = P.importsOff % 256 ^ 4 ∧
    leNat (bytesAt f (dataoff + 12) 4) = P.symbolsOff % 256 ^ 4 ∧
    leNat (bytesAt f (dataoff + 16) 4) = P.imports.length % 256 ^ 4 ∧
    leNat (bytesAt f (dataoff + 20) 4) = 1 % 256 ^ 4 ∧
    HasAt f (dataoff + 28) P.encodeStarts ∧ HasAt f (dataoff + P.importsOff) P.encodeImports ∧
    HasAt f (dataoff + P.symbolsOff) P.names.flatten := by
  rw [encode] at hat
  obtain ⟨-, hat⟩ := hat.number
  obtain ⟨hstarts, hat⟩ := hat.number
  obtain ⟨himports, hat⟩ := hat.number
  obtain ⟨hsymbols, hat⟩ := hat.number
  obtain ⟨hcount, hat⟩ := hat.number
  obtain ⟨hformat, hat⟩ := hat.number
  obtain ⟨-, hat⟩ := hat.number
  refine ⟨hstarts, himports, hsymbols, hcount, hformat, hat.left, ?_, ?_⟩
  · rw [importsOff, ← Nat.add_assoc]
    exact hat.right.left
  · have hnames := hat.right.right
    rw [length_encodeImports] at hnames
    rw [symbolsOff, importsOff, ← Nat.add_assoc, ← Nat.add_assoc]
    exact hnames

include hfits in
theorem Fits.bounds : P.symbolsOff < 2 ^ 32 ∧ P.importsOff < 2 ^ 32 ∧ P.imports.length < 2 ^ 32 ∧
    P.segments.length < 2 ^ 32 ∧ 28 + P.encodeStarts.length ≤ P.encode.length ∧
      P.encodeStarts.length = 4 + 4 * P.segments.length + P.startsBlobs.flatten.length := by
  have hsize := hfits.size
  have hstarts : P.encodeStarts.length =
      4 + 4 * P.segments.length + P.startsBlobs.flatten.length := by
    simp only [encodeStarts, List.length_append, length_leBytes, length_flatMap_leBytes,
      List.length_map, List.length_range]
    omega
  rw [length_encode] at hsize ⊢
  simp only [symbolsOff, importsOff] at hsize ⊢
  omega

include hat hfits

theorem chainedFixupsHeader_encode : chainedFixupsHeader f dataoff =
    ⟨28, P.importsOff, P.symbolsOff, BitVec.ofNat 32 P.imports.length, 1#32⟩ := by
  obtain ⟨hstarts, himports, hsymbols, hcount, hformat, -⟩ := parts hat
  obtain ⟨hsymbolsLt, himportsLt, -⟩ := hfits.bounds
  rw [chainedFixupsHeader, toNat_u32_of_number hstarts (by norm_num),
    toNat_u32_of_number himports himportsLt, toNat_u32_of_number hsymbols hsymbolsLt,
    u32_of_number hcount, u32_of_number hformat]

theorem chainedSegCount_encode : chainedSegCount f dataoff = P.segments.length := by
  obtain ⟨-, -, -, -, -, hstarts, -⟩ := parts hat
  obtain ⟨-, -, -, hsegments, -⟩ := hfits.bounds
  rw [encodeStarts] at hstarts
  rw [chainedSegCount, chainedFixupsHeader_encode hat hfits]
  exact toNat_u32_of_number hstarts.number.1 hsegments

theorem segInfoOffset_encode {i : ℕ} (hi : i < P.segments.length) :
    (u32 f (dataoff + 28 + 4 + 4 * i)).toNat = P.segInfoOffset i ∧
      ∀ s, P.segments[i] = some s → HasAt f (dataoff + 28 + P.segInfoOffset i) s.encode ∧
        P.segInfoOffset i ≠ 0 ∧ 28 + P.segInfoOffset i + s.encode.length ≤ P.encode.length := by
  obtain ⟨-, -, -, -, -, hstarts, -⟩ := parts hat
  obtain ⟨-, -, -, -, hle, hlen⟩ := hfits.bounds
  have hsize := hfits.size
  rw [encodeStarts] at hstarts
  have htable := hstarts.number.2.left
  have hblobs := hstarts.number.2.right
  rw [length_flatMap_leBytes, List.length_map, List.length_range] at hblobs
  have hmap : i < P.startsBlobs.length := by rwa [startsBlobs, List.length_map]
  have hblob := hblobs.blob hmap
  have hblobLe := blobOffset_add_le hmap
  have hget : P.segments.getD i none = P.segments[i] := by
    simp [List.getElem?_eq_getElem hi]
  have hblobEq : P.startsBlobs[i] = P.segments[i].elim [] ChainedSegment.encode := by
    simp only [startsBlobs, List.getElem_map]
  have hoff : P.segInfoOffset i ≤ 4 + 4 * P.segments.length + blobOffset P.startsBlobs i := by
    rw [segInfoOffset]
    cases P.segments.getD i none with
    | none => exact Nat.zero_le _
    | some s => exact le_rfl
  constructor
  · have hread := htable.table (i := i) (by rwa [List.length_map, List.length_range])
    rw [List.getElem_map, List.getElem_range] at hread
    exact toNat_u32_of_number hread (by omega)
  · intro s hs
    have hsome : P.segInfoOffset i = 4 + 4 * P.segments.length + blobOffset P.startsBlobs i := by
      rw [segInfoOffset, hget, hs]
      rfl
    rw [hblobEq, hs, Option.elim_some] at hblob hblobLe
    refine ⟨?_, by omega, by omega⟩
    rw [hsome]
    rwa [show dataoff + 28 + (4 + 4 * P.segments.length + blobOffset P.startsBlobs i) =
      dataoff + 28 + 4 + 4 * P.segments.length + blobOffset P.startsBlobs i by ring]

/-- What is read of the starts of a segment. -/
structure Describes (s : ChainedSegment) (seg : ChainedStartsInSegment) : Prop where
  pageSize : seg.pageSize = 0x1000#16
  segmentOffset : seg.segmentOffset.toNat = s.offset
  pageCount : seg.pageCount.toNat = s.pages.length
  pageStart : ∀ page (h : page < s.pages.length),
    seg.pageStart page = BitVec.ofNat 16 (encodePageStart s.pages[page])

omit hat hfits in
theorem describes_of_hasAt {p : ℕ} {s : ChainedSegment} (h : HasAt f p s.encode)
    (hoffset : s.offset < 2 ^ 64) (hpages : s.pages.length < 2 ^ 16) :
    Describes s (chainedStartsInSegment f p) ∧
      (chainedStartsInSegment f p).pointerFormat = malDyldChainedPtr64Offset := by
  rw [ChainedSegment.encode] at h
  obtain ⟨-, h⟩ := h.number
  obtain ⟨hsize, h⟩ := h.number
  obtain ⟨hformat, h⟩ := h.number
  obtain ⟨hoff, h⟩ := h.number
  obtain ⟨-, h⟩ := h.number
  obtain ⟨hcount, h⟩ := h.number
  have htable := h.left
  refine ⟨⟨u16_of_number hsize, ?_, ?_, fun page hpage => ?_⟩, u16_of_number hformat⟩
  · rw [chainedStartsInSegment, u64_of_number hoff, BitVec.toNat_ofNat, Nat.mod_eq_of_lt hoffset]
  · rw [chainedStartsInSegment, u16_of_number hcount, BitVec.toNat_ofNat, Nat.mod_eq_of_lt hpages]
  · have hread := htable.table (i := page) (by rwa [List.length_map])
    rw [List.getElem_map] at hread
    exact u16_of_number hread

theorem chainedStarts_encode {i : ℕ} (hi : i < P.segments.length) :
    match P.segments[i] with
    | none => chainedStarts f dataoff P.encode.length i = none
    | some s => ∃ seg, chainedStarts f dataoff P.encode.length i = some seg ∧ Describes s seg := by
  obtain ⟨hread, hsome⟩ := segInfoOffset_encode hat hfits hi
  have hheader := chainedFixupsHeader_encode hat hfits
  cases hs : P.segments[i] with
  | none =>
    have hzero : P.segInfoOffset i = 0 := by
      simp [segInfoOffset, List.getElem?_eq_getElem hi, hs]
    dsimp only
    simp only [chainedStarts, hheader, hread, hzero, if_true]
  | some s =>
    have hmem : some s ∈ P.segments := hs ▸ List.getElem_mem hi
    obtain ⟨hblob, hne, hle⟩ := hsome s hs
    obtain ⟨hoffset, hpages⟩ := hfits.counted s hmem
    obtain ⟨hdesc, hformat⟩ := describes_of_hasAt hblob hoffset hpages
    refine ⟨_, ?_, hdesc⟩
    have hroom : ¬ dataoff + P.encode.length <
        dataoff + 28 + P.segInfoOffset i + chainedStartsInSegmentSize := by
      have hlen : chainedStartsInSegmentSize ≤ s.encode.length := by
        rw [ChainedSegment.length_encode, chainedStartsInSegmentSize]
        omega
      omega
    simp only [chainedStarts, hheader, hread]
    rw [if_neg hne, if_neg hroom, if_pos hformat]

theorem hasAt_importName {i : ℕ} (hi : i < P.imports.length) :
    HasAt f (importNameAt f dataoff (BitVec.ofNat 32 i)) (P.imports[i] ++ [0#8]) := by
  obtain ⟨-, -, -, -, -, -, himports, hnames⟩ := parts hat
  obtain ⟨-, -, hcount, -⟩ := hfits.bounds
  have hname : i < P.names.length := by rwa [names, List.length_map]
  have hblob := hnames.blob hname
  have hoff := (Nat.le_add_right _ _).trans (blobOffset_add_le hname)
  have hsymbols := hfits.symbols
  rw [encodeImports] at himports
  have hread := himports.table (i := i) (by rwa [List.length_map, List.length_range])
  rw [List.getElem_map, List.getElem_range] at hread
  have hword := toNat_u32_of_number hread (by omega)
  simp only [importNameAt, chainedFixupsHeader_encode hat hfits]
  rw [BitVec.toNat_ofNat, Nat.mod_eq_of_lt (by omega), BitVec.toNat_ushiftRight, hword,
    Nat.shiftRight_eq_div_pow, Nat.mul_div_cancel _ (by norm_num)]
  simpa only [names, List.getElem_map] using hblob

/-- **The import of a bind** is looked up under its name. -/
theorem importAddress_encode (E : Env) {next ordinal : ℕ} (addend : BitVec 8) (hnext : next < 2 ^ 12)
    (hordinal : ordinal < P.imports.length) (hlt : ordinal < 2 ^ 24) :
    importAddress E f dataoff (Pointer.encode next (.bind ordinal addend)) =
      E.resolve P.imports[ordinal] := by
  obtain ⟨-, -, hcount, -⟩ := hfits.bounds
  have hnat := chained64BindOrdinal_encode hnext addend hlt
  have hord : chained64BindOrdinal (Pointer.encode next (.bind ordinal addend)) =
      BitVec.ofNat 32 ordinal :=
    BitVec.eq_of_toNat_eq (by rw [hnat, BitVec.toNat_ofNat, Nat.mod_eq_of_lt (by omega)])
  have hless : chained64BindOrdinal (Pointer.encode next (.bind ordinal addend)) <
      BitVec.ofNat 32 P.imports.length := by
    rw [BitVec.lt_def, hnat, BitVec.toNat_ofNat, Nat.mod_eq_of_lt hcount]
    exact hordinal
  have hname := cstr_of_hasAt (hfits.named _ (List.getElem_mem hordinal))
    (hasAt_importName hat hfits hordinal)
  simp only [importNameAt, chainedFixupsHeader_encode hat hfits] at hname
  simp only [importAddress, chainedFixupsHeader_encode hat hfits]
  rw [if_pos hless, hord]
  exact congrArg E.resolve hname

/-- **What the loader reads lies in the payload.** -/
theorem payloadInside_encode (hinFile : dataoff + P.encode.length ≤ f.length) :
    PayloadInside f ⟨dataoff, P.encode.length⟩ := by
  have hheader := chainedFixupsHeader_encode hat hfits
  have hsegs := chainedSegCount_encode hat hfits
  obtain ⟨-, -, hcount, -, hstarts, hlen⟩ := hfits.bounds
  have hnat : (BitVec.ofNat 32 P.imports.length).toNat = P.imports.length := by
    rw [BitVec.toNat_ofNat, Nat.mod_eq_of_lt hcount]
  refine ⟨hinFile, ?_, fun i hi p hp => ?_, ?_, fun i hi => ?_⟩
  · dsimp only
    rw [hheader, hsegs]
    dsimp only
    omega
  · dsimp only at hi hp ⊢
    rw [hsegs] at hi
    obtain ⟨hread, hsome⟩ := segInfoOffset_encode hat hfits hi
    simp only [segInfoAt, hheader, hread] at hp
    obtain ⟨hzero, rfl⟩ : P.segInfoOffset i ≠ 0 ∧ dataoff + 28 + P.segInfoOffset i = p := by
      simpa using hp
    cases hs : P.segments[i] with
    | none =>
      exact absurd (by simp [segInfoOffset, List.getElem?_eq_getElem hi, hs]) hzero
    | some s =>
      obtain ⟨hblob, -, hle⟩ := hsome s hs
      obtain ⟨hoffset, hpages⟩ := hfits.counted s (hs ▸ List.getElem_mem hi)
      rw [(describes_of_hasAt hblob hoffset hpages).1.pageCount]
      rw [ChainedSegment.length_encode] at hle
      omega
  · dsimp only
    rw [hheader, hnat, length_encode, symbolsOff]
    dsimp only
    omega
  · dsimp only at hi ⊢
    rw [hheader, hnat] at hi
    exact .of_hasAt (hasAt_importName hat hfits hi) (by simp)

end Reads

end ChainedPayload

end Maloader
