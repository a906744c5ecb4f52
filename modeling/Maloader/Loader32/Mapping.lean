import Maloader.Lib.Loops
import Maloader.Lib.Slots
import Maloader.Segment.Hull
import Maloader.Loader32.Commands

/-!
# The mappings of the 32-bit loader

`load_segment` maps again for every `__TEXT` segment, copies the same part of the file each time, and
goes on with the last mapping. It does not look whether `mmap` has failed, nor whether what it copies
fits.

* `textsOf`, `textCall`: the segments that are mapped and the call for one of them.
* `TextsPlaced`, `execCommand32_placed`: memory, log and image as the calls give them.
* `mmaps_loader`, **`loader_texts`**: the mappings of a run.
* `loader_oneText`, **`loader_image32`**: the image where one segment is mapped.
* `SegmentCommand.CopyFits`, **`textCopies_inside_iff`**: exactly when every copy fits in its mapping.
-/

namespace Maloader

open ByteLib FallibleLib ActionLib

/-! ## The calls -/

/-- The segment of a command, if it is named `__TEXT`. -/
def Command32.text : Command32 → Option SegmentCommand
  | .segment seg => if seg.isText then some seg else none
  | .dyldInfo _ | .symtab _ | .loadDylib _ | .other => none

/-- The `__TEXT` segments, in order. -/
def textsOf (cmds : List Command32) : List SegmentCommand := cmds.filterMap Command32.text

/-- The call of `mmap` for a `__TEXT` segment after the calls made so far. -/
def textCall (E : Env) (calls : List MmapCall) (seg : SegmentCommand) : Option (List MmapCall) :=
  (E.mmap calls (seg.vmaddr.zeroExtend 64) seg.mapLength).map fun B =>
    calls ++ [⟨seg.vmaddr.zeroExtend 64, seg.mapLength, some B⟩]

/-- Where a call has mapped. -/
def MmapCall.base (call : MmapCall) : Addr := call.result.getD 0#64

/-- The pages of a call and the part of the file that is copied there. -/
def placeText (f : File) (m : Mem 64) (call : MmapCall) : Mem 64 :=
  memcpy (zeroFill m call.base call.length.toNat) call.base f 0 textCopySize

/-- What is logged for a call. -/
def textCopy (call : MmapCall) : Event := .copy call.base 0 textCopySize

/-- `(img_addr, v_addr)` after the calls. -/
def textPlace (calls : List MmapCall) : Addr × Addr :=
  (calls.getLast?.map fun call => (call.base, call.addr)).getD (0#64, 0#64)

variable (E : Env) (f : File)

theorem mapText_eq_some {c d : MachContext} {seg : SegmentCommand} (h : mapText E f c seg = some d) :
    ∃ B, E.mmap c.mmaps (seg.vmaddr.zeroExtend 64) seg.mapLength = some B ∧
      d = { c with
        imgAddr := B
        vAddr := seg.vmaddr.zeroExtend 64
        mem := placeText f c.mem ⟨seg.vmaddr.zeroExtend 64, seg.mapLength, some B⟩
        mmaps := c.mmaps ++ [⟨seg.vmaddr.zeroExtend 64, seg.mapLength, some B⟩]
        trace := c.trace ++ [.copy B 0 textCopySize] } := by
  unfold mapText at h
  cases hmap : E.mmap c.mmaps (seg.vmaddr.zeroExtend 64) seg.mapLength with
  | none => simp [hmap] at h
  | some B =>
    simp only [hmap, Option.some.injEq] at h
    exact ⟨B, rfl, h.symm⟩

/-- The call for a command, if its segment is mapped. -/
def commandCall (E : Env) (calls : List MmapCall) (cmd : Command32) : Option (List MmapCall) :=
  cmd.text.elim (some calls) (textCall E calls)

theorem mmaps_execCommand32 (c : MachContext) (cmd : Command32) :
    commandCall E c.mmaps cmd = (execCommand32 E f c cmd).map MachContext.mmaps := by
  cases cmd with
  | segment seg =>
    by_cases htext : seg.isText
    · simp only [commandCall, Command32.text, execCommand32, execSegment32, htext, if_true,
        Option.map_map, Option.elim_some, mapText, textCall]
      cases E.mmap c.mmaps (seg.vmaddr.zeroExtend 64) seg.mapLength <;> rfl
    · simp only [commandCall, Command32.text, execCommand32, execSegment32, htext]
      rfl
  | dyldInfo info =>
    simp only [execCommand32, loadDyldInfo_eq]
    rfl
  | symtab symtab =>
    simp only [execCommand32, loadSymtab32_eq]
    rfl
  | loadDylib name => rfl
  | other => rfl

theorem mmaps_foldlM (cmds : List Command32) (c : MachContext) :
    (cmds.foldlM (execCommand32 E f) c).map MachContext.mmaps =
      (textsOf cmds).foldlM (textCall E) c.mmaps := by
  rw [← foldlM_hom (mmaps_execCommand32 E f) cmds c, textsOf, List.foldlM_filterMap]
  congr 1
  funext calls cmd
  cases h : cmd.text <;> simp [commandCall, h]

/-! ## What the calls leave -/

/-- Memory, log and image are as the calls made so far give them. -/
structure TextsPlaced (f : File) (m : Mem 64) (c : MachContext) : Prop where
  answered : ∀ call ∈ c.mmaps, call.result ≠ none
  mem : c.mem = c.mmaps.foldl (placeText f) m
  trace : c.trace = c.mmaps.map textCopy
  place : (c.imgAddr, c.vAddr) = textPlace c.mmaps

variable {E f} {m : Mem 64}

theorem TextsPlaced.congr {c d : MachContext} (h : TextsPlaced f m c) (hmmaps : d.mmaps = c.mmaps)
    (hmem : d.mem = c.mem) (htrace : d.trace = c.trace) (himg : d.imgAddr = c.imgAddr)
    (hv : d.vAddr = c.vAddr) : TextsPlaced f m d where
  answered := hmmaps ▸ h.answered
  mem := by rw [hmem, hmmaps, h.mem]
  trace := by rw [htrace, hmmaps, h.trace]
  place := by rw [himg, hv, hmmaps, h.place]

theorem TextsPlaced.mapText {c d : MachContext} {seg : SegmentCommand} (h : TextsPlaced f m c)
    (hmap : mapText E f c seg = some d) : TextsPlaced f m d := by
  obtain ⟨B, -, rfl⟩ := mapText_eq_some E f hmap
  constructor
  · intro call hcall
    rcases List.mem_append.mp hcall with hcall | hcall
    · exact h.answered call hcall
    · rw [List.mem_singleton.mp hcall]
      exact Option.some_ne_none B
  · simp only [List.foldl_append, List.foldl_cons, List.foldl_nil, h.mem]
  · simp only [List.map_append, h.trace, List.map_cons, List.map_nil]
    rfl
  · simp only [textPlace, List.getLast?_append, List.getLast?_singleton]
    rfl

/-- **One command** keeps memory, log and image in step with the calls. -/
theorem execCommand32_placed {c d : MachContext} {cmd : Command32} (h : TextsPlaced f m c)
    (hexec : execCommand32 E f c cmd = some d) : TextsPlaced f m d := by
  cases cmd with
  | segment seg =>
    obtain ⟨c', hmap, rfl⟩ := Option.map_eq_some_iff.mp hexec
    have hc' : TextsPlaced f m c' := by
      split_ifs at hmap with htext
      · exact h.mapText hmap
      · exact Option.some.inj hmap ▸ h
    exact hc'.congr rfl rfl rfl rfl rfl
  | dyldInfo info =>
    obtain rfl := Option.some.inj hexec
    rw [loadDyldInfo_eq]
    exact h.congr rfl rfl rfl rfl rfl
  | symtab symtab =>
    obtain rfl := Option.some.inj hexec
    rw [loadSymtab32_eq]
    exact h.congr rfl rfl rfl rfl rfl
  | loadDylib name =>
    obtain rfl := Option.some.inj hexec
    exact h.congr rfl rfl rfl rfl rfl
  | other =>
    obtain rfl := Option.some.inj hexec
    exact h

theorem foldlM_placed {cmds : List Command32} {d : MachContext}
    (hrun : cmds.foldlM (execCommand32 E f) (MachContext.zero m) = some d) : TextsPlaced f m d :=
  foldlM_option_keeps (fun _ _ _ _ h hexec => execCommand32_placed h hexec)
    ⟨fun _ h => absurd h List.not_mem_nil, rfl, rfl, rfl⟩ hrun

/-! ## The run -/

theorem addr_length_of_textCalls {segs : List SegmentCommand} {calls calls' : List MmapCall}
    (h : segs.foldlM (textCall E) calls = some calls') :
    calls'.map (fun call => (call.addr, call.length)) =
      calls.map (fun call => (call.addr, call.length)) ++
        segs.map fun seg => (seg.vmaddr.zeroExtend 64, seg.mapLength) := by
  have happend := foldlM_append_of_step (List.map fun call : MmapCall => (call.addr, call.length))
    (fun seg : SegmentCommand => [(seg.vmaddr.zeroExtend 64, seg.mapLength)]) ?_ h
  · rw [happend, ← List.map_eq_flatMap]
  · intro calls seg calls' hcall
    obtain ⟨B, -, rfl⟩ := Option.map_eq_some_iff.mp hcall
    rw [List.map_append]
    rfl

theorem loader_eq_some (hexec : (machHeader f).filetype = mhExecute) {c : MachContext} {result : ℤ}
    {start : MachContext} (h : loader E f start = some (result, c)) :
    result = -1 ∧ ∃ d p, (commands32 f).foldlM (execCommand32 E f) start = some d ∧
      c = d.atPtr p := by
  rw [loader_eq E f hexec] at h
  obtain ⟨d, hrun, he⟩ := Option.map_eq_some_iff.mp h
  obtain ⟨rfl, rfl⟩ := Prod.mk.inj he
  exact ⟨rfl, d, _, hrun, rfl⟩

/-- The calls of a run over a file: in the model it comes to its end exactly if none of them fails. -/
theorem mmaps_loader (hexec : (machHeader f).filetype = mhExecute) (m : Mem 64) :
    (loader E f (MachContext.zero m)).map (fun r => r.2.mmaps) =
      (textsOf (commands32 f)).foldlM (textCall E) [] := by
  rw [loader_eq E f hexec, Option.map_map]
  exact mmaps_foldlM E f (commands32 f) (MachContext.zero m)

/-- **Every `__TEXT` segment is mapped.** If the run comes to its end, no call of `mmap` for a `__TEXT`
segment it came to has failed, and there was one call for each of them, in order; the memory is what
these calls and their copies leave, and the image is at the last of them. -/
theorem loader_texts (E : Env) (f : File) (m : Mem 64)
    (hexec : (machHeader f).filetype = mhExecute) {result : ℤ} {c : MachContext}
    (h : loader E f (MachContext.zero m) = some (result, c)) :
    result = -1 ∧ (textsOf (commands32 f)).foldlM (textCall E) [] = some c.mmaps ∧
      c.mmaps.map (fun call => (call.addr, call.length)) =
        (textsOf (commands32 f)).map (fun seg => (seg.vmaddr.zeroExtend 64, seg.mapLength)) ∧
      TextsPlaced f m c := by
  have hcalls := mmaps_loader (E := E) hexec m
  rw [h, Option.map_some] at hcalls
  obtain ⟨hresult, d, p, hrun, rfl⟩ := loader_eq_some hexec h
  exact ⟨hresult, hcalls.symm, addr_length_of_textCalls hcalls.symm,
    (foldlM_placed hrun).congr rfl rfl rfl rfl rfl⟩

/-! ## The copies -/

/-- Adding the size of the copy to `filesize` does not wrap, or wraps by less than a page. -/
def SegmentCommand.CopyFits (seg : SegmentCommand) : Prop :=
  seg.filesize.toNat < 2 ^ 32 - 0x3000 ∨ 2 ^ 32 - 0x1000 < seg.filesize.toNat

instance (seg : SegmentCommand) : Decidable seg.CopyFits := by
  unfold SegmentCommand.CopyFits; infer_instance

theorem toNat_mapLength (seg : SegmentCommand) :
    seg.mapLength.toNat = pageUp ((seg.filesize.toNat + 0x3000) % 2 ^ 32) := by
  have hsum : ((seg.filesize + 0x3000#32).zeroExtend 64).toNat =
      (seg.filesize.toNat + 0x3000) % 2 ^ 32 := by
    rw [BitVec.zeroExtend, BitVec.toNat_setWidth_of_le (by decide), BitVec.toNat_add]
    rfl
  rw [SegmentCommand.mapLength, toNat_alignMemory (by omega), hsum]

theorem textCopySize_le_mapLength_iff (seg : SegmentCommand) :
    textCopySize ≤ seg.mapLength.toNat ↔ seg.CopyFits := by
  have hlt := seg.filesize.isLt
  rw [toNat_mapLength, SegmentCommand.CopyFits, textCopySize, pageUp]
  omega

theorem map_byteAt_range_eq_take {f : List Byte} {n : ℕ} (h : n ≤ f.length) :
    (List.range n).map (byteAt f) = f.take n := by
  apply List.ext_getElem
  · simp [h]
  · intro i h1 h2
    have hi : i < f.length := by
      rw [List.length_take] at h2
      omega
    simp [byteAt, List.getElem?_eq_getElem hi]

theorem loader_oneText (hexec : (machHeader f).filetype = mhExecute) {seg : SegmentCommand}
    (htext : textsOf (commands32 f) = [seg]) {B : Addr}
    (hmap : E.mmap [] (seg.vmaddr.zeroExtend 64) seg.mapLength = some B) (m : Mem 64) :
    ∃ c, loader E f (MachContext.zero m) = some (-1, c) ∧
      c.mmaps = [⟨seg.vmaddr.zeroExtend 64, seg.mapLength, some B⟩] ∧
      (c.imgAddr, c.vAddr) = (B, seg.vmaddr.zeroExtend 64) ∧
      c.mem = memcpy (zeroFill m B seg.mapLength.toNat) B f 0 textCopySize := by
  have hcalls : (loader E f (MachContext.zero m)).map (fun r => r.2.mmaps) =
      some [⟨seg.vmaddr.zeroExtend 64, seg.mapLength, some B⟩] := by
    rw [mmaps_loader hexec, htext, List.foldlM_cons, textCall, hmap]
    rfl
  obtain ⟨⟨result, c⟩, hload, hmmaps⟩ := Option.map_eq_some_iff.mp hcalls
  obtain ⟨rfl, d, p, hrun, rfl⟩ := loader_eq_some hexec hload
  have hplaced : TextsPlaced f m (d.atPtr p) := (foldlM_placed hrun).congr rfl rfl rfl rfl rfl
  have hmmaps : (d.atPtr p).mmaps = [⟨seg.vmaddr.zeroExtend 64, seg.mapLength, some B⟩] := hmmaps
  refine ⟨_, hload, hmmaps, ?_, ?_⟩
  · rw [hplaced.place, hmmaps]
    rfl
  · rw [hplaced.mem, hmmaps]
    rfl

/-- **The image of one `__TEXT` segment**, in a run that comes to its end, is the beginning of the file,
whatever the segment's place in it, and zeros up to the end of the mapping; nothing else is written. -/
theorem loader_image32 (E : Env) (f : File) (m : Mem 64) (hexec : (machHeader f).filetype = mhExecute)
    {seg : SegmentCommand} (htext : textsOf (commands32 f) = [seg]) (hfits : seg.CopyFits)
    (hlength : textCopySize ≤ f.length) {B : Addr}
    (hmap : E.mmap [] (seg.vmaddr.zeroExtend 64) seg.mapLength = some B) {result : ℤ} {c : MachContext}
    (h : loader E f (MachContext.zero m) = some (result, c)) :
    (c.imgAddr, c.vAddr) = (B, seg.vmaddr.zeroExtend 64) ∧
      (List.range textCopySize).map (view c.mem B) = f.take textCopySize ∧
      (∀ o, textCopySize ≤ o → o < seg.mapLength.toNat → view c.mem B o = 0#8) ∧
      ∀ x, seg.mapLength.toNat ≤ (x - B).toNat → c.mem x = m x := by
  have hle := (textCopySize_le_mapLength_iff seg).mpr hfits
  have hlt := seg.mapLength.isLt
  obtain ⟨c', hload, -, hplace, hmem⟩ := loader_oneText hexec htext hmap m
  obtain ⟨-, rfl⟩ := Prod.mk.inj (Option.some.inj (hload.symm.trans h))
  have hin : ∀ (o n : ℕ), o < 2 ^ 64 → (InRange B n (B + BitVec.ofNat 64 o) ↔ o < n) := by
    intro o n ho
    rw [InRange, toNat_add_sub_self B ho]
  refine ⟨hplace, ?_, ?_, ?_⟩
  · rw [← map_byteAt_range_eq_take hlength]
    refine List.map_congr_left fun o ho => ?_
    have ho := List.mem_range.mp ho
    rw [view, hmem, memcpy, overlay_of_inRange ((hin o _ (by omega)).mpr ho),
      toNat_add_sub_self B (by omega), Nat.zero_add]
  · intro o hcopy ho
    rw [view, hmem, memcpy, overlay_of_not_inRange (mt (hin o _ (by omega)).mp (not_lt.mpr hcopy)),
      zeroFill, overlay_of_inRange ((hin o _ (by omega)).mpr ho)]
  · intro x hx
    have hout : ∀ n ≤ seg.mapLength.toNat, ¬ InRange B n x := fun n hn h => by
      unfold InRange at h
      omega
    rw [hmem, memcpy, overlay_of_not_inRange (hout _ hle), zeroFill,
      overlay_of_not_inRange (hout _ le_rfl)]

/-! ## Small files -/

/-- The header of a 32-bit executable. -/
def encodeHeader32 (ncmds : ℕ) : File :=
  leBytes 4 mhMagic.toNat ++ leBytes 8 0 ++ leBytes 4 mhExecute.toNat ++ leBytes 4 ncmds ++ leBytes 8 0

/-- A 32-bit segment without sections. -/
def encodeSegment (segname : CString) (vmaddr vmsize fileoff filesize : ℕ) : File :=
  leBytes 4 lcSegment.toNat ++ leBytes 4 56 ++ (segname ++ List.replicate (16 - segname.length) 0#8) ++
    leBytes 4 vmaddr ++ leBytes 4 vmsize ++ leBytes 4 fileoff ++ leBytes 4 filesize ++ leBytes 16 0

/-- Data, two segments named `__TEXT` behind it, and three pages of file. -/
def twoTextFile : File :=
  encodeHeader32 3 ++ encodeSegment (lit "__DATA") 0x6000 0x1000 0 0 ++
    encodeSegment segText 0x1000 0x1000 0 0x1000 ++ encodeSegment segText 0x8000 0x1000 0x1000 0x1800 ++
      List.replicate 0x3000 0#8

/-- Both are mapped, with three pages and a part of one more. -/
theorem loader_texts_twoTextFile :
    ∃ result c, loader Env.plain twoTextFile (MachContext.zero fun _ => 0#8) = some (result, c) ∧
      result = -1 ∧ c.mmaps.map (fun call => (call.addr, call.length)) =
        [(0x1000#64, 0x4000#64), (0x8000#64, 0x5000#64)] := by
  have hexec : (machHeader twoTextFile).filetype = mhExecute := by decide +kernel
  have hrun : (loader Env.plain twoTextFile (MachContext.zero fun _ => 0#8)).isSome := by
    decide +kernel
  obtain ⟨⟨result, c⟩, h⟩ := Option.isSome_iff_exists.mp hrun
  obtain ⟨hresult, -, hmmaps, -⟩ := loader_texts Env.plain twoTextFile (fun _ => 0#8) hexec h
  refine ⟨result, c, h, hresult, hmmaps.trans ?_⟩
  decide +kernel

/-- A page of `__TEXT`, and three pages of file. -/
def textFile : File :=
  encodeHeader32 1 ++ encodeSegment segText 0x1000 0x1000 0 0x1000 ++ List.replicate 0x3000 0#8

theorem loader_image32_textFile :
    ∃ c, loader Env.plain textFile (MachContext.zero fun _ => 0#8) = some (-1, c) ∧
      (List.range textCopySize).map (view c.mem 0x1000#64) = textFile.take textCopySize := by
  have hlength : textCopySize ≤ textFile.length := by
    rw [textFile, List.length_append, List.length_replicate, textCopySize]
    omega
  have hexec : (machHeader textFile).filetype = mhExecute := by decide +kernel
  have htext : textsOf (commands32 textFile) = [segmentCommand textFile machHeaderSize] := by
    decide +kernel
  have hmap : Env.plain.mmap [] ((segmentCommand textFile machHeaderSize).vmaddr.zeroExtend 64)
      (segmentCommand textFile machHeaderSize).mapLength = some 0x1000#64 := by decide +kernel
  obtain ⟨c, hload, -⟩ := loader_oneText hexec htext hmap fun _ => 0#8
  obtain ⟨-, himage, -⟩ := loader_image32 Env.plain textFile (fun _ => 0#8) hexec htext
    (by decide +kernel) hlength hmap hload
  exact ⟨c, hload, himage⟩

end Maloader
