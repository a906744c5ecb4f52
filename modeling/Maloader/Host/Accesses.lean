import Maloader.Lib.Log
import Maloader.Host.Bounds

/-!
# The log of accesses is complete

For any file and any surroundings, the memory after loading and binding is what the logged accesses
make of the memory with the image mapped.

* `Event.apply`, `Event.byteAt`, `Event.Fits`: what an access writes, and what it has read.
* `mappedMem`: the memory with all mappings made and nothing else.
* `Logged`: the invariant of a run; `Logged.loaderStep`, `Logged.binding`.
* **`accesses_explain`**: every byte is the last one logged, and every chain entry is read as the
  accesses before it have left it.
-/

namespace Maloader

open ByteLib LogLib WalkLib ActionLib

/-! ## Accesses -/

/-- The memory behind an access. -/
def Event.apply (f : File) (m : Mem 64) : Event → Mem 64
  | .copy dest src n => memcpy m dest f src n
  | .fixup _ _ _ => m
  | .store loc value => store64 m loc value

/-- The byte that an access writes at `x`, if it writes there. -/
def Event.byteAt (f : File) (x : Addr) : Event → Option Byte
  | .copy dest src n =>
    if InRange dest n x then some (ByteLib.byteAt f (src + (x - dest).toNat)) else none
  | .fixup _ _ _ => none
  | .store loc value =>
    if InRange loc 8 x then some (ByteLib.byteAt (leBytes 8 value.toNat) (x - loc).toNat) else none

/-- A chain entry is logged as it is in memory. -/
def Event.Fits (m : Mem 64) : Event → Prop
  | .fixup _ loc raw => raw = load64 m loc
  | _ => True

/-- The memory with all mappings made. -/
def mappedMem (m : Mem 64) (mmaps : List MmapCall) : Mem 64 :=
  mmaps.foldl (fun m call => call.result.elim m fun a => zeroFill m a call.length.toNat) m

theorem mappedMem_append (m : Mem 64) (mmaps : List MmapCall) (call : MmapCall) :
    mappedMem m (mmaps ++ [call]) = call.result.elim (mappedMem m mmaps) fun a =>
      zeroFill (mappedMem m mmaps) a call.length.toNat := by
  rw [mappedMem, List.foldl_append]
  rfl

theorem Event.apply_eq (f : File) (m : Mem 64) (ev : Event) (x : Addr) :
    ev.apply f m x = (ev.byteAt f x).getD (m x) := by
  cases ev with
  | copy dest src n =>
    rw [Event.apply, Event.byteAt, memcpy]
    split_ifs with h
    · exact overlay_of_inRange h
    · exact overlay_of_not_inRange h
  | fixup segment loc raw => rfl
  | store loc value =>
    rw [Event.apply, Event.byteAt, store64, storeLE]
    split_ifs with h
    · exact overlay_of_inRange h
    · exact overlay_of_not_inRange h

/-! ## The invariant -/

/-- The log explains the memory, and before the image is there nothing is logged or mapped. -/
structure Logged (f : File) (m : Mem 64) (c : MachContext) : Prop where
  explains : Explains (Event.apply f) Event.Fits (mappedMem m c.mmaps) c.trace c.mem
  untouched : c.imgAddr = 0#64 → c.trace = [] ∧ ∀ info ∈ c.segments.recs, info.mappedAddr = 0#64

variable {E : Env} {f : File} {m : Mem 64} {c : MachContext}

theorem logged_zero (f : File) (m : Mem 64) : Logged f m (MachContext.zero m) :=
  ⟨.nil, fun _ => ⟨rfl, fun _ h => absurd h List.not_mem_nil⟩⟩

theorem Logged.ensureImageMapping64 (h : Logged f m c) :
    Logged f m (ensureImageMapping64 E f c).2 := by
  unfold Maloader.ensureImageMapping64
  dsimp only
  split_ifs with himg hhull
  · exact h
  · exact h
  · obtain ⟨htrace, hrecs⟩ := h.untouched (not_not.mp himg)
    have hmem := h.explains.eq_foldl
    rw [htrace, List.foldl_nil] at hmem
    cases hmap : E.mmap c.mmaps (hull f).1 (alignMemory ((hull f).2 - (hull f).1) 0x1000#64) with
    | none =>
      refine ⟨?_, fun _ => ⟨htrace, hrecs⟩⟩
      dsimp only
      rw [htrace, mappedMem_append, ← hmem]
      exact .nil
    | some mapped =>
      refine ⟨?_, fun _ => ⟨htrace, hrecs⟩⟩
      dsimp only
      rw [htrace, mappedMem_append, ← hmem]
      exact .nil

/-- **A segment** is copied into an image that is there, and recorded at `NULL` without one. -/
theorem Logged.execSegment (h : Logged f m c) (seg : SegmentCommand64) :
    Logged f m (execSegment E f c seg) := by
  have h := h.ensureImageMapping64 (E := E)
  rw [Maloader.execSegment]
  generalize (Maloader.ensureImageMapping64 E f c).2 = c at h ⊢
  have hcopy : Logged f m (copySegment f c seg) := by
    by_cases hcopied : seg.CopiedIn c
    · rw [copySegment_of_copied f hcopied]
      have hfits : Event.Fits c.mem (.copy (c.imgAddr + (seg.vmaddr - c.vAddr)) seg.fileoff.toNat
          seg.filesize.toNat) := trivial
      exact ⟨h.explains.snoc hfits, fun himg => absurd himg hcopied.2.2.1⟩
    · rwa [copySegment_of_not_copied f hcopied]
  generalize copySegment f c seg = c at hcopy ⊢
  refine ⟨hcopy.explains, fun himg => ?_⟩
  obtain ⟨htrace, hrecs⟩ := hcopy.untouched himg
  refine ⟨htrace, fun info hinfo => ?_⟩
  have hzero : (segmentRecord c seg).mappedAddr = 0#64 := by
    have himg : c.imgAddr = 0#64 := himg
    simp [segmentRecord, himg]
  rw [SegmentTable.recs_push] at hinfo
  split_ifs at hinfo
  · rcases List.mem_append.mp hinfo with hinfo | hinfo
    · exact hrecs info hinfo
    · rwa [List.mem_singleton.mp hinfo]
  · exact hrecs info hinfo

theorem Logged.chainedEntry (h : Logged f m c) (himg : c.imgAddr ≠ 0#64) (fixupsBase : ℕ)
    (hdr : ChainedFixupsHeader) (segment : ℕ) (loc : Addr) :
    Logged f m (chainedEntry E f fixupsBase hdr segment c loc (load64 c.mem loc)) := by
  have hfits : Event.Fits c.mem (.fixup segment loc (load64 c.mem loc)) := rfl
  have hread := h.explains.snoc hfits
  rw [chainedEntry_eq]
  refine ⟨?_, fun h => absurd h himg⟩
  cases fixupValue E f fixupsBase hdr c.imgAddr (load64 c.mem loc) with
  | none => exact hread
  | some v =>
    have hfits : Event.Fits c.mem (.store loc v) := trivial
    have hstore := hread.snoc hfits
    rwa [List.append_assoc] at hstore

theorem Logged.chainedChain (h : Logged f m c) (himg : c.imgAddr ≠ 0#64) (fixupsBase : ℕ)
    (hdr : ChainedFixupsHeader) (segment n : ℕ) (loc : Addr) :
    Logged f m (chainedChain E f fixupsBase hdr segment n c loc) := by
  induction n generalizing c loc with
  | zero => exact h
  | succ n ih =>
    have hentry := h.chainedEntry (E := E) himg fixupsBase hdr segment loc
    rw [Maloader.chainedChain]
    split_ifs
    · exact hentry
    · refine ih hentry ?_ _
      rwa [chainedEntry_eq]

theorem Logged.dumpChainedFixups (h : Logged f m c) (dataoff datasize : ℕ) :
    Logged f m (dumpChainedFixups E f c dataoff datasize) := by
  have hstart : Logged f m c.resetCounts := ⟨h.explains, h.untouched⟩
  refine dumpChainedFixups_chains hstart fun c i seg page _ _ _ _ hm h => ?_
  refine h.chainedChain (fun himg => ?_) _ _ _ _ _
  obtain ⟨info, hinfo, hne⟩ := hm
  exact hne ((h.untouched himg).2 info (List.mem_of_getElem? hinfo))

/-- **A turn** keeps the log complete. -/
theorem Logged.loaderStep (h : Logged f m c) : Logged f m (loaderStep E f c) := by
  rw [loaderStep_advance]
  have hptr : ∀ {d : MachContext} {p : ℕ}, Logged f m d → Logged f m (d.atPtr p) :=
    fun h => ⟨h.explains, h.untouched⟩
  refine hptr ?_
  cases commandAt f c.ptr with
  | segment64 seg => exact h.execSegment seg
  | dyldInfo info =>
    rw [execCommand, loadDyldInfo_eq]
    exact ⟨h.explains, h.untouched⟩
  | symtab symtab =>
    rw [execCommand, loadSymtab_eq]
    exact ⟨h.explains, h.untouched⟩
  | dyldChainedFixups fixups => exact h.dumpChainedFixups _ _
  | loadDylib name => exact ⟨h.explains, h.untouched⟩
  | other => exact h

/-- **A run** keeps the log complete. -/
theorem logged_loader64 (E : Env) (f : File) (m : Mem 64) :
    Logged f m (loader64 E f (MachContext.zero m)).2 := by
  by_cases hexec : (machHeader64 f).filetype = mhExecute
  · rw [loader64_eq_iterate E f hexec]
    have hzero := logged_zero f m
    exact iterate_end_invariant (fun _ _ h => h.loaderStep) ⟨hzero.explains, hzero.untouched⟩
  · rw [loader64, if_pos hexec]
    exact ⟨(logged_zero f m).explains, (logged_zero f m).untouched⟩

theorem explains_bindReached {H : Host} {d : MachContext} (h : Logged f m c) (hd : BindReached H c d) :
    d.mmaps = c.mmaps ∧ Explains (Event.apply f) Event.Fits (mappedMem m c.mmaps) d.trace d.mem := by
  obtain ⟨ps, -, hrun⟩ := hd
  let P (d : MachContext) : Prop := d.mmaps = c.mmaps ∧
    Explains (Event.apply f) Event.Fits (mappedMem m c.mmaps) d.trace d.mem
  have hstart : P { c with dList := boundLibraries c.dList } := ⟨rfl, h.explains⟩
  refine foldlM_option_keeps (P := P) ?_ hstart hrun
  rintro d p - d' ⟨hmmaps, hexplains⟩ hstep
  rcases bindRecord_cases H hstep with rfl | ⟨-, v, rfl⟩
  · exact ⟨hmmaps, hexplains⟩
  · have hfits : Event.Fits d.mem (.store p.2.address v) := trivial
    exact ⟨hmmaps, hexplains.snoc hfits⟩

/-- **The accesses explain the memory**, for any file, any surroundings, and any point of binding: a byte
is the last one that an access has written there, or what it was when all mappings had been made; and
every chain entry was read as the accesses before it had left it. -/
theorem accesses_explain (E : Env) (f : File) (m : Mem 64) (H : Host) {d : MachContext}
    (hd : BindReached H (loader64 E f (MachContext.zero m)).2 d) :
    (∀ x, d.mem x = ((d.trace.filterMap (Event.byteAt f x)).getLast?).getD (mappedMem m d.mmaps x)) ∧
      ∀ front segment loc raw back, d.trace = front ++ .fixup segment loc raw :: back →
        raw = load64 (front.foldl (Event.apply f) (mappedMem m d.mmaps)) loc := by
  obtain ⟨hmmaps, hexplains⟩ := explains_bindReached (logged_loader64 E f m) hd
  rw [← hmmaps] at hexplains
  constructor
  · intro x
    rw [hexplains.eq_foldl]
    exact foldl_apply (fun ev x => ev.byteAt f x) (Event.apply_eq f) d.trace _ x
  · intro front segment loc raw back hlog
    exact hexplains.fits hlog

/-- The pointer at `0x7008` is `sin`, which is what has been logged last there. -/
theorem accesses_explain_oneRow :
    let c := (loader64 mmapEnv (oneRowFile [0x08#8]) (MachContext.zero fun _ => 0#8)).2
    (c.bound smallHost).mem 0x7008#64 = 3#8 := by
  intro c
  have hlist : c.bList = [⟨some (lit "_sin"), 0x7008#64⟩] := by decide +kernel
  have hnamed : ∀ r ∈ c.bList, r.Named c.imgAddr := by
    rw [hlist]
    exact fun r hr => .inr (by rw [List.mem_singleton.mp hr]; decide)
  have hd := bindReached_doBind smallHost (doBind_eq smallHost c hnamed)
  obtain ⟨hbytes, -⟩ := accesses_explain mmapEnv (oneRowFile [0x08#8]) (fun _ => 0#8) smallHost hd
  rw [hbytes]
  decide +kernel

end Maloader
