import Maloader.Chained.Limit

/-!
# The walk in place and the two-phase reference

The reference first collects every chain entry of the pristine image and then acts on them one by
one. On a well-formed payload with pages of 4 KiB the walk does the same.

* `chainedStarts`, `payloadFixups`: the entries, collected from the pristine image.
* `WellFormedChains`: a well-formed payload over an image.
* **`dumpChainedFixups_eq`**: the walk acts on these entries.
* `word64_foldl_fixupStep`, `mem_foldl_fixupStep`: the slots and the bytes elsewhere.
* **`dumpChainedFixups_two_phase`**.
-/

namespace Maloader

open ByteLib ActionLib

variable (E : Env) (f : File) (dataoff datasize : ℕ)

/-! ## The entries of a payload -/

/-- `starts->seg_count`. -/
def chainedSegCount (f : File) (dataoff : ℕ) : ℕ :=
  (u32 f (dataoff + (chainedFixupsHeader f dataoff).startsOffset)).toNat

/-- The starts of segment `i` if they are there, inside the payload and of the format that is walked. -/
def chainedStarts (i : ℕ) : Option ChainedStartsInSegment :=
  let starts := dataoff + (chainedFixupsHeader f dataoff).startsOffset
  let segInfoOff := (u32 f (starts + 4 + 4 * i)).toNat
  if segInfoOff = 0 then none
  else if dataoff + datasize < starts + segInfoOff + chainedStartsInSegmentSize then none
  else if (chainedStartsInSegment f (starts + segInfoOff)).pointerFormat = malDyldChainedPtr64Offset then
    some (chainedStartsInSegment f (starts + segInfoOff))
  else none

theorem chainedSegment_eq (c : MachContext) (i : ℕ) :
    chainedSegment E f dataoff datasize (chainedFixupsHeader f dataoff) c i =
      match chainedStarts f dataoff datasize i with
      | none => c
      | some seg =>
        dumpChained64OffsetEntries E f dataoff (chainedFixupsHeader f dataoff) i seg c := by
  unfold chainedSegment chainedStarts
  dsimp only
  split_ifs <;> rfl

/-- The starts of segment `i` if its chains are walked: the segment is recorded and mapped. -/
def walkedStarts (t : SegmentTable) (i : ℕ) : Option ChainedStartsInSegment :=
  (chainedStarts f dataoff datasize i).filter fun _ => t.Mapped i

/-- The entries of the chains of segment `i`. -/
def segmentFixups (t : SegmentTable) (im : ℕ → Byte) (chain : ℕ → ℕ → List ℕ) (i : ℕ) :
    List Fixup :=
  match walkedStarts f dataoff datasize t i with
  | none => []
  | some seg => (List.range seg.pageCount.toNat).flatMap (pageFixups im i seg (chain i))

/-- **The first phase**: every entry of every chain, with its word in the image. -/
def payloadFixups (t : SegmentTable) (im : ℕ → Byte) (chain : ℕ → ℕ → List ℕ) : List Fixup :=
  (List.range (chainedSegCount f dataoff)).flatMap (segmentFixups f dataoff datasize t im chain)

/-- A well-formed payload over an image of `n` bytes; `chain i page` are the entries of a page. -/
structure WellFormedChains (t : SegmentTable) (im : ℕ → Byte) (n : ℕ) (chain : ℕ → ℕ → List ℕ) :
    Prop where
  header : chainedFixupsHeaderSize ≤ datasize
  starts : (chainedFixupsHeader f dataoff).startsOffset + 4 ≤ datasize
  importsFormat : (chainedFixupsHeader f dataoff).importsFormat = 1#32
  pageSize : ∀ i < chainedSegCount f dataoff, ∀ seg ∈ walkedStarts f dataoff datasize t i,
    seg.pageSize = 0x1000#16
  segment : ∀ i < chainedSegCount f dataoff, ∀ seg ∈ walkedStarts f dataoff datasize t i,
    SegmentChains im n seg (chain i)
  disjoint : ∀ j < chainedSegCount f dataoff, ∀ i < j, ∀ s ∈ walkedStarts f dataoff datasize t i,
    ∀ s' ∈ walkedStarts f dataoff datasize t j,
      s.pageBase s.pageCount.toNat ≤ s'.pageBase 0 ∨ s'.pageBase s'.pageCount.toNat ≤ s.pageBase 0

variable {f dataoff datasize} {t : SegmentTable} {im : ℕ → Byte} {n i : ℕ} {chain : ℕ → ℕ → List ℕ}

theorem raw_of_mem_payloadFixups {e : Fixup} (he : e ∈ payloadFixups f dataoff datasize t im chain) :
    e.raw = word64 im e.offset := by
  obtain ⟨i, -, he⟩ := List.mem_flatMap.mp he
  unfold segmentFixups at he
  split at he
  · simp at he
  · obtain ⟨page, -, he⟩ := List.mem_flatMap.mp he
    unfold pageFixups at he
    split_ifs at he
    · obtain ⟨x, -, rfl⟩ := List.mem_map.mp he
      rfl
    · simp at he

theorem WellFormedChains.bounds (h : WellFormedChains f dataoff datasize t im n chain)
    (hi : i < chainedSegCount f dataoff) {e : Fixup}
    (he : e ∈ segmentFixups f dataoff datasize t im chain i) :
    ∃ seg ∈ walkedStarts f dataoff datasize t i, seg.pageBase 0 ≤ e.offset ∧
      e.offset + 8 ≤ seg.pageBase seg.pageCount.toNat := by
  unfold segmentFixups at he
  split at he
  · simp at he
  · rename_i seg hseg
    obtain ⟨page, hp, he⟩ := List.mem_flatMap.mp he
    have hp := List.mem_range.mp hp
    have hb := (h.segment i hi seg hseg).bounds i hp he
    have hmul := Nat.mul_le_mul_right seg.pageSize.toNat (Nat.succ_le_of_lt hp)
    rw [Nat.succ_mul] at hmul
    simp only [ChainedStartsInSegment.pageBase] at hb ⊢
    exact ⟨seg, hseg, by omega, by omega⟩

theorem WellFormedChains.inImage (h : WellFormedChains f dataoff datasize t im n chain) {e : Fixup}
    (he : e ∈ payloadFixups f dataoff datasize t im chain) : e.offset + 8 ≤ n := by
  obtain ⟨i, hi, he⟩ := List.mem_flatMap.mp he
  have hi := List.mem_range.mp hi
  obtain ⟨seg, hseg, -, hb⟩ := h.bounds hi he
  exact hb.trans (h.segment i hi seg hseg).inImage

theorem WellFormedChains.pairwise (h : WellFormedChains f dataoff datasize t im n chain)
    (hn : n ≤ 2 ^ 64) : (payloadFixups f dataoff datasize t im chain).Pairwise Fixup.Apart := by
  refine List.pairwise_flatMap.mpr ⟨fun i hi => ?_, ?_⟩
  · unfold segmentFixups
    split
    · exact List.Pairwise.nil
    · exact (h.segment i (List.mem_range.mp hi) _ ‹_›).pairwise i hn
  · refine List.Pairwise.imp_of_mem (fun {i j} hi hj hij e he e' he' => ?_) List.pairwise_lt_range
    have hi := List.mem_range.mp hi
    have hj := List.mem_range.mp hj
    obtain ⟨s, hs, hb⟩ := h.bounds hi he
    obtain ⟨s', hs', hb'⟩ := h.bounds hj he'
    have hin := (h.segment i hi s hs).inImage
    have hin' := (h.segment j hj s' hs').inImage
    have hd := h.disjoint j hj i hij s hs s' hs'
    simp only [ChainedStartsInSegment.pageBase] at hb hb' hd
    exact ⟨by omega, by omega, by omega⟩

/-! ## Other tables and images -/

section Congr

variable {t' : SegmentTable} {im' : ℕ → Byte}

theorem SegmentChains.congr {seg : ChainedStartsInSegment} {chain : ℕ → List ℕ}
    (h : SegmentChains im n seg chain) (him : ∀ o < n, im o = im' o) :
    SegmentChains im' n seg chain where
  inImage := h.inImage
  pageChain page hp hs := by
    have hchain := h.pageChain page hp hs
    refine hchain.congr fun x hx => ?_
    have hx := hchain.bounds x hx
    have hle := h.page_le hp
    rw [chainNext, chainNext, word64_congr fun i hi => him (x + i) (by omega)]

theorem WellFormedChains.congr (h : WellFormedChains f dataoff datasize t im n chain)
    (ht : ∀ i, t.Mapped i ↔ t'.Mapped i) (him : ∀ o < n, im o = im' o) :
    WellFormedChains f dataoff datasize t' im' n chain ∧
      payloadFixups f dataoff datasize t' im' chain = payloadFixups f dataoff datasize t im chain := by
  have hwalked : walkedStarts f dataoff datasize t' = walkedStarts f dataoff datasize t := by
    funext i
    simp only [walkedStarts, ht]
  refine ⟨⟨h.header, h.starts, h.importsFormat, hwalked ▸ h.pageSize, fun i hi seg hseg => ?_,
    hwalked ▸ h.disjoint⟩, ?_⟩
  · rw [hwalked] at hseg
    exact (h.segment i hi seg hseg).congr him
  · refine List.flatMap_congr fun i hi => ?_
    have hi := List.mem_range.mp hi
    rw [segmentFixups, segmentFixups, hwalked]
    cases hseg : walkedStarts f dataoff datasize t i with
    | none => rfl
    | some seg =>
      have hchains := h.segment i hi seg hseg
      refine List.flatMap_congr fun page hp => ?_
      have hp := List.mem_range.mp hp
      unfold pageFixups
      split_ifs with hs
      · refine List.map_congr_left fun x hx => ?_
        have hx := (hchains.pageChain page hp hs).bounds x hx
        have hle := hchains.page_le hp
        rw [word64_congr fun i hi => him (x + i) (by omega)]
      · rfl

end Congr

/-! ## The second phase -/

/-- With pages of 4 KiB the bound cuts nothing. -/
theorem pageVisits_eq_pageFixups {seg : ChainedStartsInSegment} {chain : ℕ → List ℕ} {page : ℕ}
    (h : SegmentChains im n seg chain) (hsize : seg.pageSize = 0x1000#16)
    (hp : page < seg.pageCount.toNat) :
    pageVisits im i seg chain page = pageFixups im i seg chain page := by
  unfold pageVisits pageFixups
  split_ifs with hs
  · refine List.take_of_length_le ?_
    rw [chainFixups, List.length_map]
    exact length_le_chainLimit (h.pageChain page hp hs) hsize
  · rfl

theorem WellFormedChains.chainedSegment_eq_foldl
    (h : WellFormedChains f dataoff datasize t im n chain) (hn : n ≤ 2 ^ 64)
    (hi : i < chainedSegCount f dataoff) (c : MachContext) (ht : c.segments = t)
    (hf : ∀ e ∈ segmentFixups f dataoff datasize t im chain i, e.Fresh c) :
    chainedSegment E f dataoff datasize (chainedFixupsHeader f dataoff) c i =
      (segmentFixups f dataoff datasize t im chain i).foldl
        (fixupStep E f dataoff (chainedFixupsHeader f dataoff)) c := by
  rw [chainedSegment_eq]
  unfold segmentFixups walkedStarts at hf ⊢
  cases hseg : chainedStarts f dataoff datasize i with
  | none => rfl
  | some seg =>
    by_cases hm : t.Mapped i
    · have hwalked : seg ∈ walkedStarts f dataoff datasize t i := by
        simp [walkedStarts, hseg, hm]
      have hchains := h.segment i hi seg hwalked
      have hvisits : (List.range seg.pageCount.toNat).flatMap (pageVisits im i seg (chain i)) =
          (List.range seg.pageCount.toNat).flatMap (pageFixups im i seg (chain i)) :=
        List.flatMap_congr fun page hp =>
          pageVisits_eq_pageFixups hchains (h.pageSize i hi seg hwalked) (List.mem_range.mp hp)
      simp only [hseg, Option.filter_some, hm, decide_true, if_true] at hf ⊢
      rw [← hvisits] at hf ⊢
      exact dumpChained64OffsetEntries_eq E f dataoff _ i hchains hn (ht ▸ hm) hf
    · simp only [Option.filter_some, hm, decide_false, Bool.false_eq_true, if_false, List.foldl_nil]
      exact dumpChained64OffsetEntries_of_not_mapped E f dataoff _ i (ht ▸ hm)

/-- **The walk acts on the collected entries.** -/
theorem dumpChainedFixups_eq (c : MachContext)
    (h : WellFormedChains f dataoff datasize c.segments (view c.mem c.imgAddr) n chain)
    (hn : n ≤ 2 ^ 64) :
    dumpChainedFixups E f c dataoff datasize =
      (payloadFixups f dataoff datasize c.segments (view c.mem c.imgAddr) chain).foldl
        (fixupStep E f dataoff (chainedFixupsHeader f dataoff))
        { c with chainedRebaseCount := 0#32, chainedBindCount := 0#32 } := by
  have hs := h.starts
  have hh := h.header
  unfold dumpChainedFixups
  dsimp only
  rw [if_neg (by omega), if_neg (by omega), if_neg (by omega)]
  refine foldl_eq_foldl_flatMap (AtImage c.imgAddr c.segments)
    (fun c e => e.Fresh c) (fun c e => atImage_fixupStep E f dataoff _ c e)
    (fun _ _ _ _ hap hf => fresh_fixupStep E f dataoff _ hap hf)
    (fun i hi c' hgood hf => h.chainedSegment_eq_foldl E hn (List.mem_range.mp hi) c' hgood.2 hf)
    (h.pairwise hn) ⟨rfl, rfl⟩ fun e he => ?_
  exact (raw_of_mem_payloadFixups he).symm

/-! ## The image afterwards -/

section Slots

variable {fixupsBase : ℕ} {hdr : ChainedFixupsHeader} {es : List Fixup}

theorem mem_fixupWrites {img : Addr} {s : Addr × ℕ} :
    s ∈ fixupWrites E f fixupsBase hdr img es ↔ ∃ e ∈ es, ∃ v,
      fixupValue E f fixupsBase hdr img e.raw = some v ∧
        s = (img + BitVec.ofNat 64 e.offset, v.toNat) := by
  simp only [fixupWrites, List.mem_flatMap, List.mem_map, Option.mem_toList,
    eq_comm (a := s)]

theorem pairwise_fixupWrites (hap : es.Pairwise Fixup.Apart) (img : Addr) :
    (fixupWrites E f fixupsBase hdr img es).Pairwise fun x y => x.1 ≠ y.1 := by
  refine List.pairwise_flatMap.mpr ⟨fun e _ => ?_, hap.imp fun {e e'} h s hs s' hs' => ?_⟩
  · cases fixupValue E f fixupsBase hdr img e.raw <;> simp
  · obtain ⟨v, -, rfl⟩ := List.mem_map.mp hs
    obtain ⟨v', -, rfl⟩ := List.mem_map.mp hs'
    exact (h.slotsApart img).ne (by norm_num)

/-- **The slot of an entry** holds what the entry stores, or its old word. -/
theorem word64_foldl_fixupStep (hap : es.Pairwise Fixup.Apart) {e : Fixup} (he : e ∈ es)
    (c : MachContext) (hf : e.Fresh c) :
    word64 (view (es.foldl (fixupStep E f fixupsBase hdr) c).mem c.imgAddr) e.offset =
      (fixupValue E f fixupsBase hdr c.imgAddr e.raw).getD e.raw := by
  have hother : ∀ e' ∈ es, e' ≠ e → SlotsApart 8 (c.imgAddr + BitVec.ofNat 64 e'.offset)
      (c.imgAddr + BitVec.ofNat 64 e.offset) := fun e' he' hne =>
    (hap.forall he' he hne).slotsApart c.imgAddr
  rw [Fixup.Fresh, ← load64_eq_word64, load64] at hf
  rw [foldl_fixupStep, ← load64_eq_word64, load64, loadLE_applyWrites (by norm_num)]
  · cases hv : fixupValue E f fixupsBase hdr c.imgAddr e.raw with
    | some v =>
      have hlast := lastWrite_of_mem ((mem_fixupWrites E).mpr ⟨e, he, v, hv, rfl⟩)
        (pairwise_fixupWrites E hap c.imgAddr)
      rw [hlast, Option.elim_some, Option.getD_some]
      exact ofNat_toNat_mod v
    | none =>
      rw [lastWrite_eq_none fun s hs => ?_]
      · exact hf
      · obtain ⟨e', he', v, hv', rfl⟩ := (mem_fixupWrites E).mp hs
        exact (hother e' he' fun h => by rw [h, hv] at hv'; cases hv').ne (by norm_num)
  · intro s hs
    obtain ⟨e', he', v, -, rfl⟩ := (mem_fixupWrites E).mp hs
    by_cases hne : e' = e
    · exact .inl (by rw [hne])
    · exact .inr (hother e' he' hne)

theorem mem_foldl_fixupStep (c : MachContext) {x : Addr}
    (hx : ∀ e ∈ es, ¬ InRange (c.imgAddr + BitVec.ofNat 64 e.offset) 8 x) :
    (es.foldl (fixupStep E f fixupsBase hdr) c).mem x = c.mem x := by
  rw [foldl_fixupStep]
  refine applyWrites_of_not_inRange c.mem fun s hs => ?_
  obtain ⟨e, he, v, -, rfl⟩ := (mem_fixupWrites E).mp hs
  exact hx e he

/-- The entry accesses of a log. -/
def visits (trace : List Event) : List (ℕ × Addr × BitVec 64) :=
  trace.filterMap fun ev => match ev with
    | .fixup segment loc raw => some (segment, loc, raw)
    | _ => none

theorem visits_foldl_fixupStep (c : MachContext) :
    visits (es.foldl (fixupStep E f fixupsBase hdr) c).trace =
      visits c.trace ++ es.map fun e => (e.segment, c.imgAddr + BitVec.ofNat 64 e.offset, e.raw) := by
  have hev : ∀ es : List Fixup, visits (fixupEvents E f fixupsBase hdr c.imgAddr es) =
      es.map fun e => (e.segment, c.imgAddr + BitVec.ofNat 64 e.offset, e.raw) := by
    intro es
    induction es with
    | nil => rfl
    | cons e es ih =>
      rw [visits, fixupEvents] at ih
      rw [visits, fixupEvents, List.flatMap_cons, List.filterMap_append, ih, List.map_cons]
      cases fixupValue E f fixupsBase hdr c.imgAddr e.raw <;> rfl
  rw [foldl_fixupStep, visits, List.filterMap_append, ← hev es]
  rfl

end Slots

/-! ## The two phases -/

/-- The address the import of a bind entry resolves to, `0` when it does not. -/
def importAddress (E : Env) (f : File) (dataoff : ℕ) (raw : BitVec 64) : Addr :=
  let hdr := chainedFixupsHeader f dataoff
  let ordinal := chained64BindOrdinal raw
  if ordinal < hdr.importsCount then
    E.resolve (cstrAt f (dataoff + hdr.symbolsOffset +
      (u32 f (dataoff + hdr.importsOffset + 4 * ordinal.toNat) >>> 9).toNat))
  else 0#64

theorem fixupValue_eq (img : Addr) (raw : BitVec 64) :
    fixupValue E f dataoff (chainedFixupsHeader f dataoff) img raw =
      if chained64IsBind raw then
        if importAddress E f dataoff raw = 0#64 then none
        else some (importAddress E f dataoff raw + (chained64BindAddend raw).signExtend 64)
      else some (img + chained64RebaseTarget raw) := by
  unfold fixupValue importAddress chainedImportName
  by_cases ho : chained64BindOrdinal raw < (chainedFixupsHeader f dataoff).importsCount
  · simp [ho, BitVec.not_le.mpr ho]
  · simp [ho, BitVec.not_lt.mp ho]

theorem isUnresolved_eq (img : Addr) (raw : BitVec 64) :
    isUnresolved E f dataoff (chainedFixupsHeader f dataoff) img raw =
      (chained64IsBind raw && importAddress E f dataoff raw = 0#64) := by
  rw [isUnresolved, fixupValue_eq]
  split_ifs <;> simp_all

/-- **The walk in place equals the two-phase reference.** Every chain entry of the pristine image is
visited once, in order; rebases, resolved binds and unresolved binds end as the reference says; no
other byte changes; the counters count the entries of each kind. -/
theorem dumpChainedFixups_two_phase (c : MachContext)
    (h : WellFormedChains f dataoff datasize c.segments (view c.mem c.imgAddr) n chain)
    (hn : n ≤ 2 ^ 64) :
    let es := payloadFixups f dataoff datasize c.segments (view c.mem c.imgAddr) chain
    let loc (e : Fixup) := c.imgAddr + BitVec.ofNat 64 e.offset
    let c' := dumpChainedFixups E f c dataoff datasize
    (visits c'.trace = visits c.trace ++ es.map (fun e => (e.segment, loc e, e.raw)) ∧
      es.Pairwise Fixup.Apart) ∧
    (∀ e ∈ es, chained64IsBind e.raw = false →
      load64 c'.mem (loc e) = c.imgAddr + chained64RebaseTarget e.raw) ∧
    (∀ e ∈ es, chained64IsBind e.raw → importAddress E f dataoff e.raw ≠ 0#64 →
      load64 c'.mem (loc e) =
        importAddress E f dataoff e.raw + (chained64BindAddend e.raw).signExtend 64) ∧
    (∀ e ∈ es, chained64IsBind e.raw → importAddress E f dataoff e.raw = 0#64 →
      load64 c'.mem (loc e) = e.raw) ∧
    (∀ x, (∀ e ∈ es, ¬ InRange (loc e) 8 x) → c'.mem x = c.mem x) ∧
    c'.chainedRebaseCount = BitVec.ofNat 32 (es.countP fun e => !chained64IsBind e.raw) ∧
    c'.chainedBindCount = BitVec.ofNat 32 (es.countP fun e => chained64IsBind e.raw) ∧
    c'.chainedUnresolvedBindCount = c.chainedUnresolvedBindCount + BitVec.ofNat 32
      (es.countP fun e => chained64IsBind e.raw && importAddress E f dataoff e.raw = 0#64) ∧
    c'.imgAddr = c.imgAddr ∧ c'.vAddr = c.vAddr ∧ c'.segments = c.segments ∧ c'.bList = c.bList ∧
      c'.dList = c.dList ∧ c'.entryPoint = c.entryPoint := by
  intro es loc c'
  have hc' : c' = es.foldl (fixupStep E f dataoff (chainedFixupsHeader f dataoff))
      { c with chainedRebaseCount := 0#32, chainedBindCount := 0#32 } := dumpChainedFixups_eq E c h hn
  have hap : es.Pairwise Fixup.Apart := h.pairwise hn
  have hslot : ∀ e ∈ es, load64 c'.mem (loc e) =
      (fixupValue E f dataoff (chainedFixupsHeader f dataoff) c.imgAddr e.raw).getD e.raw := by
    intro e he
    rw [load64_eq_word64, hc']
    exact word64_foldl_fixupStep E hap he _ (raw_of_mem_payloadFixups he).symm
  simp only [fixupValue_eq] at hslot
  refine ⟨⟨?_, hap⟩, fun e he hb => ?_, fun e he hb hr => ?_, fun e he hb hr => ?_, fun x hx => ?_, ?_⟩
  · rw [hc']
    exact visits_foldl_fixupStep E _
  · rw [hslot e he, if_neg (by rw [hb]; exact Bool.false_ne_true)]
    rfl
  · rw [hslot e he, if_pos hb, if_neg hr]
    rfl
  · rw [hslot e he, if_pos hb, if_pos hr]
    rfl
  · rw [hc']
    exact mem_foldl_fixupStep E _ hx
  · rw [hc', foldl_fixupStep]
    simp only [BitVec.zero_add, isUnresolved_eq, and_self]

/-- A payload for one page, whose chain starts with its first byte. -/
def onePagePayload : File :=
  leBytes 4 0 ++ leBytes 4 28 ++ leBytes 12 0 ++ leBytes 8 1 ++ leBytes 4 1 ++ leBytes 4 8 ++
    leBytes 4 24 ++ leBytes 2 0x1000 ++ leBytes 2 6 ++ leBytes 12 0 ++ leBytes 2 1 ++ leBytes 2 0

/-- A mapped page with a rebase to `0x40` and behind it one to `0`. -/
def onePageContext : MachContext :=
  { MachContext.zero fun x => byteAt [0x40#8, 0, 0, 0, 0, 0, 0x10#8] (x - 0x5000#64).toNat with
    imgAddr := 0x5000#64
    segments := ⟨[⟨[], 0#64, 0x1000#64, 0x5000#64⟩], by decide⟩ }

theorem wellFormedChains_onePage : WellFormedChains onePagePayload 0 60 onePageContext.segments
    (view onePageContext.mem onePageContext.imgAddr) 0x1000 fun _ _ => [0, 8] := by
  have hcount : chainedSegCount onePagePayload 0 = 1 := by decide
  have hstarts : ∀ i < chainedSegCount onePagePayload 0, ∀ seg,
      seg ∈ walkedStarts onePagePayload 0 60 onePageContext.segments i →
        seg = chainedStartsInSegment onePagePayload 36 := by
    intro i hi seg hseg
    obtain rfl : i = 0 := by omega
    exact (Option.some.inj hseg).symm
  refine ⟨by decide, by decide, by decide, fun i hi seg hseg => ?_, fun i hi seg hseg => ?_,
    fun j hj i hi => by omega⟩
  · rw [hstarts i hi seg hseg]
    decide
  · rw [hstarts i hi seg hseg]
    refine ⟨by decide, fun page hp _ => ?_⟩
    obtain rfl : page = 0 := Nat.lt_one_iff.mp hp
    exact .step (by decide) (by decide) (by decide) (by decide)
      (.last (by decide) (by decide) (by decide))

theorem dumpChainedFixups_two_phase_onePage :
    let c' := dumpChainedFixups Env.plain onePagePayload onePageContext 0 60
    load64 c'.mem 0x5000#64 = 0x5040#64 ∧ load64 c'.mem 0x5008#64 = 0x5000#64 ∧
      c'.chainedRebaseCount = 2#32 := by
  obtain ⟨-, hrebase, -, -, -, hcount, -⟩ :=
    dumpChainedFixups_two_phase Env.plain onePageContext wellFormedChains_onePage (by norm_num)
  exact ⟨hrebase ⟨0, 0, 0x10000000000040#64⟩ (by decide) (by decide),
    hrebase ⟨0, 8, 0#64⟩ (by decide) (by decide), hcount.trans (by decide)⟩

end Maloader
