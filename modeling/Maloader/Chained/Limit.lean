import Maloader.Chained.Walk

/-!
# The bound of the chain loop

The loop takes `chainLimit` steps. The format has pages of 4 KiB, which hold no more entries than
that, and pages of 16 KiB, which hold up to four times as many.

* `length_le_chainLimit`: no chain of a 4 KiB page is cut.
* `fixupCount`, `fixupCount_foldl`: the entries an event log shows.
* **`dumpChained64OffsetEntries_page_iff`**: on a 16 KiB page every entry is acted on if and only if
  there are at most `chainLimit`.
* `denseContext`, `denseStarts`: a 16 KiB page with one entry more than that.
-/

namespace Maloader

open ByteLib ActionLib

variable {im : ℕ → Byte} {seg : ChainedStartsInSegment} {page : ℕ} {os : List ℕ}

/-- **The packing argument**: the entries of a 4 KiB page are within the bound. -/
theorem length_le_chainLimit (h : PageChain im seg page os) (hsize : seg.pageSize = 0x1000#16) :
    os.length ≤ chainLimit := by
  have hpack := h.length_mul_le
  rw [hsize, show (0x1000#16).toNat = 4096 from rfl] at hpack
  rw [chainLimit]
  omega

/-! ## Counting entries in the log -/

/-- The entry accesses of a log. -/
def fixupCount (trace : List Event) : ℕ :=
  trace.countP fun ev => match ev with
    | .fixup _ _ _ => true
    | _ => false

variable (E : Env) (f : File) (fixupsBase : ℕ) (hdr : ChainedFixupsHeader) (segment : ℕ)

theorem fixupCount_fixupEvents (img : Addr) (es : List Fixup) :
    fixupCount (fixupEvents E f fixupsBase hdr img es) = es.length := by
  induction es with
  | nil => rfl
  | cons e es ih =>
    rw [fixupCount, fixupEvents] at ih
    rw [fixupCount, fixupEvents, List.flatMap_cons, List.countP_append, ih, List.countP_cons,
      List.length_cons]
    cases fixupValue E f fixupsBase hdr img e.raw <;> simp [Nat.add_comm]

theorem fixupCount_foldl (es : List Fixup) (c : MachContext) :
    fixupCount (es.foldl (fixupStep E f fixupsBase hdr) c).trace =
      fixupCount c.trace + es.length := by
  rw [foldl_fixupStep, ← fixupCount_fixupEvents E f fixupsBase hdr c.imgAddr es]
  exact List.countP_append ..

/-- **Cut or not**: a walk up to the bound acts on the whole chain exactly if the bound allows. -/
theorem chainedPage_eq_foldl_iff (hs : HasChain (seg.pageStart page)) (c : MachContext)
    (h : PageChain (view c.mem c.imgAddr) seg page os)
    (hhi : seg.pageBase page + seg.pageSize.toNat ≤ 2 ^ 64) :
    chainedPage E f fixupsBase hdr segment seg c page =
        (chainFixups (view c.mem c.imgAddr) segment os).foldl (fixupStep E f fixupsBase hdr) c ↔
      os.length ≤ chainLimit := by
  have hfresh : ∀ e ∈ chainFixups (view c.mem c.imgAddr) segment (os.take chainLimit),
      e.Fresh c := by
    intro e he
    obtain ⟨o, -, rfl⟩ := List.mem_map.mp he
    rfl
  rw [chainedPage_eq E f fixupsBase hdr segment hs h hhi c hfresh]
  constructor
  · intro heq
    have hcount := congrArg (fun c : MachContext => fixupCount c.trace) heq
    simp only [fixupCount_foldl, chainFixups, List.length_map, List.length_take] at hcount
    omega
  · intro hle
    rw [List.take_of_length_le hle]

/-! ## Pages of 16 KiB -/

/-- **A page of 16 KiB**, as the walk over its segment comes to it: every entry of its chain is
rebased or bound and counted if and only if the chain has at most `chainLimit` entries. -/
theorem dumpChained64OffsetEntries_page_iff {c : MachContext} (hm : c.segments.Mapped segment)
    (hsize : seg.pageSize = 0x4000#16) (hp : page < seg.pageCount.toNat)
    (hs : HasChain (seg.pageStart page)) (hin : seg.pageBase page + 0x4000 ≤ 2 ^ 64) :
    let step := chainedPage E f fixupsBase hdr segment seg
    let before := (List.range page).foldl step c
    let im := view before.mem before.imgAddr
    dumpChained64OffsetEntries E f fixupsBase hdr segment seg c =
        (List.range' (page + 1) (seg.pageCount.toNat - (page + 1))).foldl step (step before page) ∧
      (PageChain im seg page os →
        (step before page = (chainFixups im segment os).foldl (fixupStep E f fixupsBase hdr) before ↔
          os.length ≤ chainLimit)) := by
  intro step before im
  refine ⟨?_, fun h => chainedPage_eq_foldl_iff E f fixupsBase hdr segment hs before h ?_⟩
  · have hsplit : List.range seg.pageCount.toNat =
        List.range page ++ page :: List.range' (page + 1) (seg.pageCount.toNat - (page + 1)) := by
      have happ := List.range'_append_1 (s := 0) (m := page) (n := seg.pageCount.toNat - page)
      rw [Nat.zero_add, Nat.add_sub_cancel' hp.le] at happ
      rw [← List.range'_succ, List.range_eq_range', List.range_eq_range', ← happ]
      congr 2
      omega
    rw [dumpChained64OffsetEntries_of_mapped E f fixupsBase hdr segment hm, hsplit, List.foldl_append,
      List.foldl_cons]
  · rwa [hsize]

/-- A page at `0x5000` with a rebase to `0x40`, a bind and a rebase to `0`. -/
def threeEntryContext : MachContext :=
  { MachContext.zero fun x => byteAt
      [0x40#8, 0, 0, 0, 0, 0, 0x10#8, 0, 0, 0, 0, 0, 0, 0, 0x10#8, 0x80#8] (x - 0x5000#64).toNat with
    imgAddr := 0x5000#64
    segments := ⟨[⟨lit "__DATA", 0#64, 0x4000#64, 0x5000#64⟩], by decide⟩ }

/-- Starts with one page, whose chain begins with it. -/
def threeEntryStarts : ChainedStartsInSegment :=
  ⟨0x4000#16, malDyldChainedPtr64Offset, 0#64, 1#16, fun _ => 0#16⟩

/-- The context behind that page. -/
def threeEntryPage : MachContext :=
  chainedPage Env.plain [] 0 (chainedFixupsHeader [] 0) 0 threeEntryStarts threeEntryContext 0

theorem dumpChained64OffsetEntries_page_iff_threeEntries :
    let c := threeEntryContext
    threeEntryPage = (chainFixups (view c.mem c.imgAddr) 0 [0, 8, 16]).foldl
        (fixupStep Env.plain [] 0 (chainedFixupsHeader [] 0)) c ∧
      threeEntryPage.chainedRebaseCount = 2#32 ∧ threeEntryPage.chainedBindCount = 1#32 ∧
      load64 threeEntryPage.mem 0x5000#64 = 0x5040#64 ∧
      load64 threeEntryPage.mem 0x5010#64 = 0x5000#64 := by
  intro c
  obtain ⟨hone, htwo, hthree⟩ : chainNext (view c.mem c.imgAddr) 0 = 8 ∧
      chainNext (view c.mem c.imgAddr) 8 = 8 ∧ chainNext (view c.mem c.imgAddr) 16 = 0 := by
    decide +kernel
  have hchain : PageChain (view c.mem c.imgAddr) threeEntryStarts 0 [0, 8, 16] := by
    have hbase : threeEntryStarts.pageBase 0 = 0 := by decide
    have hsize : threeEntryStarts.pageSize.toNat = 0x4000 := rfl
    have hstart : (threeEntryStarts.pageStart 0).toNat = 0 := rfl
    rw [PageChain, hbase, hsize, hstart]
    exact .cons (by decide) (by decide) hone (by decide) (by decide)
      (.cons (by decide) (by decide) htwo (by decide) (by decide) (.last (by decide) (by decide) hthree))
  have hpage := ((dumpChained64OffsetEntries_page_iff Env.plain [] 0
    (chainedFixupsHeader [] 0) 0 (c := c) ⟨_, rfl, by decide⟩
    (show threeEntryStarts.pageSize = 0x4000#16 from rfl)
    (show 0 < threeEntryStarts.pageCount.toNat by decide)
    (show HasChain (threeEntryStarts.pageStart 0) by decide) (by decide)).2 hchain).mpr (by decide)
  exact ⟨hpage, by decide +kernel, by decide +kernel, by decide +kernel, by decide +kernel⟩

/-! ## A page that is cut -/

/-- Words of `2 << 51` up to offset `0x1000`, then zeros: 513 entries at distance 8. -/
def denseImage (o : ℕ) : Byte := if o % 8 = 6 ∧ o < 0x1000 then 0x10#8 else 0#8

/-- The dense image mapped at `0x100000000`. -/
def denseContext : MachContext :=
  { MachContext.zero fun x => denseImage (x - 0x100000000#64).toNat with
    imgAddr := 0x100000000#64
    segments := ⟨[⟨lit "__DATA", 0x100000000#64, 0x4000#64, 0x100000000#64⟩], by decide⟩ }

/-- One page of 16 KiB whose chain starts at its first byte. -/
def denseStarts : ChainedStartsInSegment :=
  ⟨0x4000#16, malDyldChainedPtr64Offset, 0#64, 1#16, fun _ => 0#16⟩

/-- The offsets of the 513 entries. -/
def denseChain : List ℕ := (List.range (512 + 1)).map fun k => 0 + 8 * k

theorem word64_dense (o : ℕ) (ho : o + 8 ≤ 0x4000) :
    word64 (view denseContext.mem denseContext.imgAddr) o = word64 denseImage o := by
  refine word64_congr fun i hi => ?_
  change denseImage (0x100000000#64 + BitVec.ofNat 64 (o + i) - 0x100000000#64).toNat = _
  rw [toNat_add_sub_self _ (by omega)]

theorem word64_denseImage (k : ℕ) :
    word64 denseImage (8 * k) = if k < 512 then 0x10000000000000#64 else 0#64 := by
  have hbyte : ∀ i < 8, denseImage (8 * k + i) =
      if i = 6 ∧ k < 512 then 0x10#8 else 0#8 := by
    intro i hi
    rw [denseImage]
    congr 1
    rw [eq_iff_iff]
    omega
  rw [word64, word, List.map_congr_left fun i hi => hbyte i (List.mem_range.mp hi)]
  split_ifs with hk <;> simp only [hk, and_true, and_false] <;> decide

theorem pageChain_dense :
    PageChain (view denseContext.mem denseContext.imgAddr) denseStarts 0 denseChain := by
  have hnext : ∀ k ≤ 512, chainNext (view denseContext.mem denseContext.imgAddr) (0 + 8 * k) =
      if k < 512 then 8 else 0 := by
    intro k hk
    rw [chainNext, Nat.zero_add, word64_dense _ (by omega), word64_denseImage]
    split_ifs <;> rfl
  refine chain_of_adjacent (by norm_num) (by decide) (by decide) (fun k hk => ?_) ?_
  · exact (hnext k hk.le).trans (if_pos hk)
  · exact (hnext 512 le_rfl).trans (if_neg (by norm_num))

/-- **The last entry of the dense page is dropped**: the walk stops in front of it. -/
theorem dense_page_is_cut :
    let step := chainedPage Env.plain [] 0 (chainedFixupsHeader [] 0) 0 denseStarts
    denseContext.segments.Mapped 0 ∧ denseStarts.pointerFormat = malDyldChainedPtr64Offset ∧
      denseStarts.pageSize = 0x4000#16 ∧ HasChain (denseStarts.pageStart 0) ∧
      PageChain (view denseContext.mem denseContext.imgAddr) denseStarts 0 denseChain ∧
      dumpChained64OffsetEntries Env.plain [] 0 (chainedFixupsHeader [] 0) 0 denseStarts denseContext =
        step denseContext 0 ∧
      step denseContext 0 ≠
        (chainFixups (view denseContext.mem denseContext.imgAddr) 0 denseChain).foldl
          (fixupStep Env.plain [] 0 (chainedFixupsHeader [] 0)) denseContext ∧
      fixupCount (step denseContext 0).trace = 512 := by
  intro step
  have hs : HasChain (denseStarts.pageStart 0) := by decide
  have hm : denseContext.segments.Mapped 0 := ⟨_, rfl, by decide⟩
  have hlen : denseChain.length = 513 := by rw [denseChain, List.length_map, List.length_range]
  have hstep := chainedPage_eq Env.plain [] 0 (chainedFixupsHeader [] 0) 0 hs
    pageChain_dense (by decide) denseContext fun e he => by
      obtain ⟨o, -, rfl⟩ := List.mem_map.mp he
      rfl
  refine ⟨hm, rfl, rfl, hs, pageChain_dense, ?_, ?_, ?_⟩
  · have hpages : List.range denseStarts.pageCount.toNat = [0] := rfl
    have hdump : dumpChained64OffsetEntries Env.plain [] 0 (chainedFixupsHeader [] 0) 0 denseStarts
        denseContext = _ := dumpChained64OffsetEntries_of_mapped _ _ _ _ 0 hm
    rwa [hpages, List.foldl_cons, List.foldl_nil] at hdump
  · intro heq
    have hle := (chainedPage_eq_foldl_iff Env.plain [] 0 (chainedFixupsHeader [] 0) 0 hs denseContext
      pageChain_dense (by decide)).mp heq
    rw [hlen, chainLimit] at hle
    omega
  · have hcount := congrArg (fun c : MachContext => fixupCount c.trace) hstep
    simp only [fixupCount_foldl, chainFixups, List.length_map, List.length_take, hlen] at hcount
    exact hcount

end Maloader
