import Maloader.Chained.Frame
import Maloader.Loader.Executable
import Maloader.Segment.Layout

/-!
# One list of commands over two files

Two files that are alike behind their load commands. The same commands, run over the one and over
the other, do the same, except that a segment that maps the load commands brings their bytes into
the image.

* `bindRecords_eq_of_drop`, `mainSymbols_eq_of_drop`, `samePayload_of_drop`: tables behind the
  commands read the same.
* `segmentBytes`, `differingCopies`: where segments are copied to, and where they bring bytes that
  the files have differently.
* `SameRun`, `SameRun.execCommand`: the relation of the two runs, one command.
* **`foldl_execCommand_twoFiles`**: all commands.
-/

namespace Maloader

open ByteLib

/-! ## Tables behind the commands -/

section Reads

variable {f f' : File} {n : ℕ} (h : f.drop n = f'.drop n)
include h

theorem u16_eq_of_drop {p : ℕ} (hp : n ≤ p) : u16 f p = u16 f' p := by
  rw [u16, bytesAt_eq_of_drop h hp, u16]

theorem u32_eq_of_drop {p : ℕ} (hp : n ≤ p) : u32 f p = u32 f' p := by
  rw [u32, bytesAt_eq_of_drop h hp, u32]

theorem u64_eq_of_drop {p : ℕ} (hp : n ≤ p) : u64 f p = u64 f' p := by
  rw [u64, bytesAt_eq_of_drop h hp, u64]

theorem cstrAt_eq_of_drop {p : ℕ} (hp : n ≤ p) : cstrAt f p = cstrAt f' p := by
  rw [cstrAt, drop_eq_of_drop h hp, cstrAt]

variable (E : Env)

theorem readUleb128Loop_eq_of_drop (k : ℕ) {p : ℕ} (hp : n ≤ p) (result : BitVec 64) (bit : ℕ) :
    readUleb128Loop E f k p result bit = readUleb128Loop E f' k p result bit := by
  induction k generalizing p result bit with
  | zero => rfl
  | succ k ih => rw [readUleb128Loop, readUleb128Loop, byteAt_eq_of_drop h hp, ih (by omega)]

theorem readUleb128_eq_of_drop {p : ℕ} (hp : n ≤ p) (stop : ℕ) :
    readUleb128 E f p stop = readUleb128 E f' p stop := readUleb128Loop_eq_of_drop h E _ hp _ _

theorem bindStep_eq_of_drop (t : SegmentTable) (stop : ℕ) {s : BindState} (hp : n ≤ s.p) :
    bindStep E f t stop s = bindStep E f' t stop s := by
  have hcount := readUleb128_eq_of_drop h E (p := s.p + 1) (by omega) stop
  have hskip := readUleb128_eq_of_drop h E (p := (readUleb128 E f' (s.p + 1) stop).2)
    (hp.trans ((Nat.le_succ _).trans (le_readUleb128 E f' stop (s.p + 1)))) stop
  unfold bindStep
  rw [byteAt_eq_of_drop h hp]
  dsimp only
  generalize bindOpcode _ = op
  cases op with
  | setSymbolTrailingFlagsImm =>
    simp only [bindOpcodeStep, cstrAt_eq_of_drop h (hp.trans (Nat.le_succ s.p))]
  | doBindUlebTimesSkippingUleb => simp only [bindOpcodeStep, hcount, hskip]
  | _ => simp only [bindOpcodeStep, hcount]

theorem bindLoop_eq_of_drop (t : SegmentTable) (stop k : ℕ) {s : BindState} (hp : n ≤ s.p) :
    bindLoop E f t stop k s = bindLoop E f' t stop k s := by
  induction k generalizing s with
  | zero => rfl
  | succ k ih =>
    have hlt := lt_bindStep_p E f' t stop s
    rw [bindLoop, bindLoop, bindStep_eq_of_drop h E t stop hp, ih (by omega)]

theorem bindRecords_eq_of_drop (t : SegmentTable) {start size : ℕ} (hp : size ≠ 0 → n ≤ start) :
    bindRecords E f t start (start + size) = bindRecords E f' t start (start + size) := by
  unfold bindRecords bindFinal
  by_cases hsize : size = 0
  · rw [hsize, Nat.add_zero, Nat.sub_self]
    rfl
  · rw [bindLoop_eq_of_drop h E t (s := BindState.init start []) _ _ (hp hsize)]

theorem dyldInfoRecords_eq_of_drop (t : SegmentTable) {info : DyldInfoCommand}
    (htable : TableBehind n (.dyldInfo info)) :
    dyldInfoRecords E f t info = dyldInfoRecords E f' t info := by
  rw [dyldInfoRecords, bindRecords_eq_of_drop h E t htable.1, bindRecords_eq_of_drop h E t htable.2,
    dyldInfoRecords]

omit E in
theorem mainSymbols_eq_of_drop {symtab : SymtabCommand}
    (hp : symtab.nsyms ≠ 0 → n ≤ symtab.symoff ∧ n ≤ symtab.stroff) :
    mainSymbols f symtab = mainSymbols f' symtab := by
  unfold mainSymbols symtabEntries
  by_cases hsyms : symtab.nsyms = 0
  · rw [hsyms]
    rfl
  · obtain ⟨hsym, hstr⟩ := hp hsyms
    have hentry : ∀ i, nlist64 f (symtab.symoff + nlist64Size * i) =
        nlist64 f' (symtab.symoff + nlist64Size * i) := fun i => by
      unfold nlist64
      rw [u32_eq_of_drop h (by omega), u64_eq_of_drop h (by omega)]
    simp only [hentry]
    refine List.filter_congr fun nlist _ => ?_
    rw [cstrAt_eq_of_drop h (by omega)]

omit E in
theorem samePayload_of_drop {dataoff : ℕ} (hp : n ≤ dataoff) (datasize : ℕ) :
    SamePayload f f' dataoff datasize := by
  have hheader : chainedFixupsHeader f dataoff = chainedFixupsHeader f' dataoff := by
    unfold chainedFixupsHeader
    rw [u32_eq_of_drop h (by omega), u32_eq_of_drop h (by omega), u32_eq_of_drop h (by omega),
      u32_eq_of_drop h (by omega), u32_eq_of_drop h (by omega)]
  have hstarts : ∀ p, n ≤ p → chainedStartsInSegment f p = chainedStartsInSegment f' p := by
    intro p hp
    unfold chainedStartsInSegment
    rw [u16_eq_of_drop h (by omega), u16_eq_of_drop h (by omega), u64_eq_of_drop h (by omega),
      u16_eq_of_drop h (by omega)]
    congr 1
    funext page
    exact u16_eq_of_drop h (by omega)
  refine ⟨hheader, ?_, fun i => ?_, fun hdr ordinal => ?_⟩
  · rw [chainedSegCount, chainedSegCount, hheader, u32_eq_of_drop h (by omega)]
  · unfold chainedStarts
    dsimp only
    rw [hheader, u32_eq_of_drop h (by omega), hstarts _ (by omega)]
  · unfold chainedImportName
    dsimp only
    rw [u32_eq_of_drop h (by omega), cstrAt_eq_of_drop h (by omega)]

end Reads

/-! ## Bytes that differ -/

/-- Where in an image at `B`, for the address `v`, a segment is copied to. -/
def SegmentCommand64.dest (seg : SegmentCommand64) (B v : Addr) : Addr := B + (seg.vmaddr - v)

/-- The bytes of the image that segments are copied to. -/
def segmentBytes (segs : List SegmentCommand64) (B v : Addr) : Set Addr :=
  {x | ∃ seg ∈ segs, ¬ seg.isPagezero ∧ InRange (seg.dest B v) seg.filesize.toNat x}

instance (segs : List SegmentCommand64) (B v x : Addr) : Decidable (x ∈ segmentBytes segs B v) :=
  inferInstanceAs (Decidable (∃ seg ∈ segs, ¬ seg.isPagezero ∧
    InRange (seg.dest B v) seg.filesize.toNat x))

/-- Those of them that the two files have differently. -/
def differingCopies (f f' : File) (segs : List SegmentCommand64) (B v : Addr) : Set Addr :=
  {x | ∃ seg ∈ segs, ¬ seg.isPagezero ∧ InRange (seg.dest B v) seg.filesize.toNat x ∧
    byteAt f (seg.fileoff.toNat + (x - seg.dest B v).toNat) ≠
      byteAt f' (seg.fileoff.toNat + (x - seg.dest B v).toNat)}

instance (f f' : File) (segs : List SegmentCommand64) (B v x : Addr) :
    Decidable (x ∈ differingCopies f f' segs B v) :=
  inferInstanceAs (Decidable (∃ seg ∈ segs, ¬ seg.isPagezero ∧
    InRange (seg.dest B v) seg.filesize.toNat x ∧
    byteAt f (seg.fileoff.toNat + (x - seg.dest B v).toNat) ≠
      byteAt f' (seg.fileoff.toNat + (x - seg.dest B v).toNat)))

/-- Two runs that differ at most in these bytes. -/
structure SameRun (f f' : File) (segs : List SegmentCommand64) (c c' : MachContext) : Prop where
  eq_withMem : c' = c.withMem c'.mem
  mem_eq : c.imgAddr = 0#64 → c'.mem = c.mem
  eqOn : Set.EqOn c.mem c'.mem (compl (differingCopies f f' segs c.imgAddr c.vAddr))

variable {E : Env} {f f' : File} {segs : List SegmentCommand64} {c c' : MachContext}

theorem SameRun.rfl : SameRun f f' segs c c := ⟨Eq.refl _, fun _ => Eq.refl _, fun _ _ => Eq.refl _⟩

theorem SameRun.eq_of_null (h : SameRun f f' segs c c') (hi : c.imgAddr = 0#64) : c' = c := by
  rw [h.eq_withMem, h.mem_eq hi]
  exact Eq.refl _

theorem ensureImageMapping64_congr (hhull : hull f' = hull f) (c : MachContext) :
    ensureImageMapping64 E f' c = ensureImageMapping64 E f c := by
  rw [ensureImageMapping64, hhull, ensureImageMapping64]

theorem SameRun.ensureImageMapping64 (hhull : hull f' = hull f) (h : SameRun f f' segs c c') :
    SameRun f f' segs (ensureImageMapping64 E f c).2 (ensureImageMapping64 E f' c').2 := by
  rw [ensureImageMapping64_congr hhull]
  by_cases hi : c.imgAddr = 0#64
  · rw [h.eq_of_null hi]
    exact .rfl
  · have hi' : c'.imgAddr ≠ 0#64 := by
      rw [h.eq_withMem]
      exact hi
    rw [ensureImageMapping64_of_ne E f hi, ensureImageMapping64_of_ne E f hi']
    exact h

theorem SameRun.copySegment {seg : SegmentCommand64} (hseg : seg ∈ segs)
    (h : SameRun f f' segs c c') : SameRun f f' segs (copySegment f c seg) (copySegment f' c' seg) := by
  have hc' := h.eq_withMem
  generalize c'.mem = m at hc'
  subst hc'
  by_cases hcopy : seg.CopiedIn c
  · have hcopy' : seg.CopiedIn (c.withMem m) := hcopy
    rw [copySegment_of_copied f hcopy, copySegment_of_copied f' hcopy']
    refine ⟨Eq.refl _, fun hi => absurd hi hcopy.2.2.1, ?_⟩
    dsimp only [memcpy, MachContext.withMem]
    refine eqOn_overlay h.eqOn fun x hx hin => ?_
    by_contra hne
    exact hx ⟨seg, hseg, hcopy.1, hin, hne⟩
  · have hcopy' : ¬ seg.CopiedIn (c.withMem m) := hcopy
    rw [copySegment_of_not_copied f hcopy, copySegment_of_not_copied f' hcopy']
    exact h

theorem SameRun.execSegment (hhull : hull f' = hull f) {seg : SegmentCommand64} (hseg : seg ∈ segs)
    (h : SameRun f f' segs c c') : SameRun f f' segs (execSegment E f c seg) (execSegment E f' c' seg) := by
  have hcopied := (h.ensureImageMapping64 (E := E) hhull).copySegment hseg
  unfold Maloader.execSegment
  generalize Maloader.copySegment f (Maloader.ensureImageMapping64 E f c).2 seg = d at hcopied
  generalize Maloader.copySegment f' (Maloader.ensureImageMapping64 E f' c').2 seg = d' at hcopied
  have hd' := hcopied.eq_withMem
  generalize d'.mem = m at hd'
  subst hd'
  exact ⟨Eq.refl _, hcopied.mem_eq, hcopied.eqOn⟩

theorem SameRun.dumpChainedFixups {dataoff datasize : ℕ} (hf : SamePayload f f' dataoff datasize)
    (h : SameRun f f' segs c c')
    (hclear : c.imgAddr ≠ 0#64 → FixupsIn (compl (differingCopies f f' segs c.imgAddr c.vAddr))
      (walkEvents E f c dataoff datasize)) :
    SameRun f f' segs (dumpChainedFixups E f c dataoff datasize)
      (dumpChainedFixups E f' c' dataoff datasize) := by
  have hc' := h.eq_withMem
  generalize c'.mem = m₀ at hc'
  subst hc'
  have hself : Maloader.dumpChainedFixups E f c dataoff datasize =
      c.withImage (Maloader.dumpChainedFixups E f c dataoff datasize) :=
    dumpChainedFixups_withImage E f c c dataoff datasize
  obtain ⟨himg, hsegs⟩ := atImage_dumpChainedFixups E f c dataoff datasize
  have htrace := trace_eq_walkEvents E f c dataoff datasize
  have hv : (Maloader.dumpChainedFixups E f c dataoff datasize).vAddr = c.vAddr := by
    rw [hself]
    exact Eq.refl _
  -- the second walk is the first one over another memory
  have hsame : ∀ F : Set Addr, Set.EqOn c.mem m₀ F → FixupsIn F (walkEvents E f c dataoff datasize) →
      ∃ m, Maloader.dumpChainedFixups E f' (c.withMem m₀) dataoff datasize =
          (Maloader.dumpChainedFixups E f c dataoff datasize).withMem m ∧
        Set.EqOn (Maloader.dumpChainedFixups E f c dataoff datasize).mem m F := by
    intro F hm hF
    obtain ⟨m, heq, hin, -⟩ := dumpChainedFixups_frame c (c.withMem m₀) hf (Eq.refl _)
      (fun _ _ _ => Iff.rfl) (Eq.refl _) hm hF
    refine ⟨m, ?_, hin⟩
    rw [heq]
    generalize Maloader.dumpChainedFixups E f c dataoff datasize = d at *
    have hd : d.withMem m = (c.withImage d).withMem m := by rw [← hself]
    rw [hd]
    unfold MachContext.withTrace MachContext.withSegments MachContext.withMem MachContext.withImage
    rw [htrace, hsegs]
  by_cases hi : c.imgAddr = 0#64
  · have hm : Set.EqOn c.mem m₀ Set.univ := fun x _ => (congrFun (h.mem_eq hi) x).symm
    obtain ⟨m, heq, hin⟩ := hsame Set.univ hm (fixupsIn_univ _)
    rw [heq]
    exact ⟨Eq.refl _, fun _ => funext fun x => (hin (Set.mem_univ x)).symm,
      fun x _ => hin (Set.mem_univ x)⟩
  · obtain ⟨m, heq, hin⟩ := hsame _ h.eqOn (hclear hi)
    rw [heq]
    refine ⟨Eq.refl _, fun h0 => absurd (himg.symm.trans h0) hi, ?_⟩
    rw [himg, hv]
    exact hin

/-- **One command** over the two files. -/
theorem SameRun.execCommand {n : ℕ} (hdrop : f.drop n = f'.drop n) (hhull : hull f' = hull f)
    {cmd : Command} (htable : TableBehind n cmd) (hseg : ∀ seg, cmd = .segment64 seg → seg ∈ segs)
    (h : SameRun f f' segs c c')
    (hclear : c.imgAddr ≠ 0#64 → FixupsIn (compl (differingCopies f f' segs c.imgAddr c.vAddr))
      (execCommand E f c cmd).trace) :
    SameRun f f' segs (execCommand E f c cmd) (execCommand E f' c' cmd) := by
  cases cmd with
  | segment64 seg => exact h.execSegment hhull (hseg seg (Eq.refl _))
  | dyldInfo info =>
    have hrecords := fun t => dyldInfoRecords_eq_of_drop hdrop E t htable
    have hc' := h.eq_withMem
    generalize c'.mem = m at hc'
    subst hc'
    simp only [Maloader.execCommand, loadDyldInfo_eq, hrecords]
    exact ⟨Eq.refl _, h.mem_eq, h.eqOn⟩
  | symtab symtab =>
    have hc' := h.eq_withMem
    generalize c'.mem = m at hc'
    subst hc'
    simp only [Maloader.execCommand, loadSymtab_eq, mainSymbols_eq_of_drop hdrop htable]
    exact ⟨Eq.refl _, h.mem_eq, h.eqOn⟩
  | loadDylib name =>
    have hc' := h.eq_withMem
    generalize c'.mem = m at hc'
    subst hc'
    exact ⟨Eq.refl _, h.mem_eq, h.eqOn⟩
  | dyldChainedFixups fixups =>
    refine h.dumpChainedFixups (samePayload_of_drop hdrop htable _) fun hi => ?_
    refine (hclear hi).mono ?_
    rw [Maloader.execCommand, trace_eq_walkEvents]
    exact List.subset_append_right _ _
  | other => exact h

/-! ## All commands -/

section Runs

variable (E f)

theorem trace_foldl_execCommand (c : MachContext) (cmds : List Command) :
    c.trace <+: (cmds.foldl (execCommand E f) c).trace :=
  List.foldlRecOn (motive := fun d => c.trace <+: d.trace) cmds _ List.prefix_rfl
    fun d hd cmd _ => hd.trans (trace_prefix_execCommand E f d cmd)

theorem image_execCommand {c : MachContext} (hi : c.imgAddr ≠ 0#64) (cmd : Command) :
    (execCommand E f c cmd).imgAddr = c.imgAddr ∧ (execCommand E f c cmd).vAddr = c.vAddr := by
  by_cases hcmd : ∃ seg, cmd = .segment64 seg
  · obtain ⟨seg, rfl⟩ := hcmd
    obtain ⟨himg, hv, -⟩ := copySegment_fields f c seg
    rw [execCommand, execSegment, ensureImageMapping64_of_ne E f hi]
    exact ⟨himg, hv⟩
  · obtain ⟨himg, hv, -⟩ := keeps_execCommand E f c fun seg he => hcmd ⟨seg, he⟩
    exact ⟨himg, hv⟩

theorem image_foldl_execCommand {c : MachContext} (hi : c.imgAddr ≠ 0#64) (cmds : List Command) :
    (cmds.foldl (execCommand E f) c).imgAddr = c.imgAddr ∧
      (cmds.foldl (execCommand E f) c).vAddr = c.vAddr := by
  refine List.foldlRecOn (motive := fun d : MachContext => d.imgAddr = c.imgAddr ∧ d.vAddr = c.vAddr)
    cmds _ ⟨rfl, rfl⟩ fun d hd cmd _ => ?_
  obtain ⟨himg, hv⟩ := image_execCommand E f (c := d) (by rwa [hd.1]) cmd
  exact ⟨himg.trans hd.1, hv.trans hd.2⟩

end Runs

/-- **The same commands over two files** that are alike behind the commands. The entries of the chained
fixups must be clear of the bytes that differ. -/
theorem foldl_execCommand_twoFiles {n : ℕ} (hdrop : f.drop n = f'.drop n) (hhull : hull f' = hull f)
    {cmds : List Command} (htables : ∀ cmd ∈ cmds, TableBehind n cmd)
    (hsegs : ∀ seg ∈ segmentsOf cmds, seg ∈ segs) (h : SameRun f f' segs c c')
    (hclear : FixupsIn (compl (differingCopies f f' segs (cmds.foldl (execCommand E f) c).imgAddr
      (cmds.foldl (execCommand E f) c).vAddr)) (cmds.foldl (execCommand E f) c).trace) :
    SameRun f f' segs (cmds.foldl (execCommand E f) c) (cmds.foldl (execCommand E f') c') := by
  induction cmds generalizing c c' with
  | nil => exact h
  | cons cmd cmds ih =>
    rw [List.foldl_cons] at hclear ⊢
    have hseg : ∀ seg, cmd = .segment64 seg → seg ∈ segs := by
      rintro seg rfl
      exact hsegs seg List.mem_cons_self
    have hrest : ∀ seg ∈ segmentsOf cmds, seg ∈ segs := by
      intro seg hmem
      rw [segmentsOf, List.filterMap_cons] at hsegs
      refine hsegs seg ?_
      split
      · exact hmem
      · exact List.mem_cons_of_mem _ hmem
    have hnow : c.imgAddr ≠ 0#64 → FixupsIn (compl (differingCopies f f' segs c.imgAddr c.vAddr))
        (execCommand E f c cmd).trace := by
      intro hi
      obtain ⟨himg, hv⟩ := image_foldl_execCommand E f hi (cmd :: cmds)
      rw [List.foldl_cons] at himg hv
      rw [himg, hv] at hclear
      exact hclear.mono (trace_foldl_execCommand E f _ cmds).subset
    exact ih (fun cmd' hcmd' => htables cmd' (List.mem_cons_of_mem _ hcmd')) hrest
      (h.execCommand hdrop hhull (htables cmd List.mem_cons_self) hseg hnow) hclear

end Maloader
