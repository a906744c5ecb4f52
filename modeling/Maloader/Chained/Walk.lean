import Maloader.Lib.Chain
import Maloader.Lib.Slots
import Maloader.Lib.Loops
import Maloader.Chained.Model

/-!
# The walk over the chains of a segment

The walk reads each link out of the word it is about to overwrite. Where the chains of a segment
keep their slots apart this makes no difference: it acts on the words of the pristine image.

* `fixupValue`, `chainedEntry_eq`: what one entry stores and counts.
* `Fixup`, `fixupStep`, **`foldl_fixupStep`**: a list of entries with their pristine words.
* `chainedChain_eq`: a chain, up to the bound of the loop; `chainedPage_eq`: a page.
* **`dumpChained64OffsetEntries_eq`**: a segment, for any page size.
-/

namespace Maloader

open ByteLib ActionLib

variable (E : Env) (f : File) (fixupsBase : ℕ) (hdr : ChainedFixupsHeader)

/-! ## One entry -/

/-- What an entry stores; `none` when it leaves its slot alone. -/
def fixupValue (img : Addr) (raw : BitVec 64) : Option (BitVec 64) :=
  if chained64IsBind raw then
    (chainedImportName f fixupsBase hdr (chained64BindOrdinal raw)).bind fun name =>
      if E.resolve name = 0#64 then none
      else some (E.resolve name + (chained64BindAddend raw).signExtend 64)
  else some (img + chained64RebaseTarget raw)

/-- An entry that binds and finds no address. -/
def isUnresolved (img : Addr) (raw : BitVec 64) : Bool :=
  chained64IsBind raw && (fixupValue E f fixupsBase hdr img raw).isNone

theorem chainedEntry_eq (segment : ℕ) (c : MachContext) (loc : Addr) (raw : BitVec 64) :
    chainedEntry E f fixupsBase hdr segment c loc raw =
      { c with
        mem := applyWrites 8 c.mem
          ((fixupValue E f fixupsBase hdr c.imgAddr raw).toList.map fun v => (loc, v.toNat))
        trace := c.trace ++ .fixup segment loc raw ::
          (fixupValue E f fixupsBase hdr c.imgAddr raw).toList.map (.store loc)
        chainedRebaseCount := c.chainedRebaseCount + BitVec.ofNat 32 (!chained64IsBind raw).toNat
        chainedBindCount := c.chainedBindCount + BitVec.ofNat 32 (chained64IsBind raw).toNat
        chainedUnresolvedBindCount := c.chainedUnresolvedBindCount +
          BitVec.ofNat 32 (isUnresolved E f fixupsBase hdr c.imgAddr raw).toNat } := by
  unfold chainedEntry isUnresolved fixupValue
  by_cases hb : chained64IsBind raw
  · simp only [hb, if_true, Bool.true_and]
    cases chainedImportName f fixupsBase hdr (chained64BindOrdinal raw) with
    | none => simp [applyWrites]
    | some name =>
      by_cases hr : E.resolve name = 0#64 <;>
        simp [applyChainedBind, hr, applyWrites, store64]
  · simp [hb, applyChained64OffsetRebase, applyWrites, store64]

/-! ## A list of entries -/

/-- An entry: its segment, its offset in the image and its word in the pristine image. -/
structure Fixup where
  segment : ℕ
  offset : ℕ
  raw : BitVec 64
  deriving DecidableEq

/-- Act on an entry by its pristine word. -/
def fixupStep (c : MachContext) (e : Fixup) : MachContext :=
  chainedEntry E f fixupsBase hdr e.segment c (c.imgAddr + BitVec.ofNat 64 e.offset) e.raw

/-- What the entries store, in order. -/
def fixupWrites (img : Addr) (es : List Fixup) : List (Addr × ℕ) :=
  es.flatMap fun e => (fixupValue E f fixupsBase hdr img e.raw).toList.map fun v =>
    (img + BitVec.ofNat 64 e.offset, v.toNat)

/-- The accesses of the entries, in order. -/
def fixupEvents (img : Addr) (es : List Fixup) : List Event :=
  es.flatMap fun e => .fixup e.segment (img + BitVec.ofNat 64 e.offset) e.raw ::
    (fixupValue E f fixupsBase hdr img e.raw).toList.map (.store (img + BitVec.ofNat 64 e.offset))

theorem ofNat_countP_cons {α : Type} (p : α → Bool) (x : BitVec 32) (a : α) (l : List α) :
    x + BitVec.ofNat 32 (p a).toNat + BitVec.ofNat 32 (l.countP p) =
      x + BitVec.ofNat 32 ((a :: l).countP p) := by
  rw [BitVec.add_assoc, ← BitVec.ofNat_add, List.countP_cons, Nat.add_comm]
  cases p a <;> rfl

/-- **A list of entries** changes the image, the log and the counters. -/
theorem foldl_fixupStep (es : List Fixup) (c : MachContext) :
    es.foldl (fixupStep E f fixupsBase hdr) c =
      { c with
        mem := applyWrites 8 c.mem (fixupWrites E f fixupsBase hdr c.imgAddr es)
        trace := c.trace ++ fixupEvents E f fixupsBase hdr c.imgAddr es
        chainedRebaseCount := c.chainedRebaseCount +
          BitVec.ofNat 32 (es.countP fun e => !chained64IsBind e.raw)
        chainedBindCount := c.chainedBindCount +
          BitVec.ofNat 32 (es.countP fun e => chained64IsBind e.raw)
        chainedUnresolvedBindCount := c.chainedUnresolvedBindCount +
          BitVec.ofNat 32 (es.countP fun e =>
            isUnresolved E f fixupsBase hdr c.imgAddr e.raw) } := by
  induction es generalizing c with
  | nil => simp [fixupWrites, fixupEvents, applyWrites]
  | cons e es ih =>
    rw [List.foldl_cons, ih, fixupStep, chainedEntry_eq]
    simp only [ofNat_countP_cons (fun e : Fixup => !chained64IsBind e.raw),
      ofNat_countP_cons (fun e : Fixup => chained64IsBind e.raw),
      ofNat_countP_cons (fun e : Fixup => isUnresolved E f fixupsBase hdr c.imgAddr e.raw),
      fixupWrites, fixupEvents, List.flatMap_cons, List.append_assoc, applyWrites,
      List.foldl_append]

/-! ## Fresh entries -/

/-- The entry's word is still the one in the image. -/
def Fixup.Fresh (c : MachContext) (e : Fixup) : Prop :=
  word64 (view c.mem c.imgAddr) e.offset = e.raw

/-- Two entries have slots in the address space that share no byte. -/
def Fixup.Apart (e e' : Fixup) : Prop :=
  e.offset + 8 ≤ 2 ^ 64 ∧ e'.offset + 8 ≤ 2 ^ 64 ∧
    (e.offset + 8 ≤ e'.offset ∨ e'.offset + 8 ≤ e.offset)

instance : Std.Symm Fixup.Apart := ⟨fun _ _ h => ⟨h.2.1, h.1, h.2.2.symm⟩⟩

theorem Fixup.Apart.slotsApart {e e' : Fixup} (h : e.Apart e') (img : Addr) :
    SlotsApart 8 (img + BitVec.ofNat 64 e.offset) (img + BitVec.ofNat 64 e'.offset) :=
  slotsApart_offset img h.1 h.2.1 (by norm_num) h.2.2

/-- Where the image lies and which segments are recorded. -/
def AtImage (img : Addr) (t : SegmentTable) (c : MachContext) : Prop :=
  c.imgAddr = img ∧ c.segments = t

theorem atImage_fixupStep {img : Addr} {t : SegmentTable} (c : MachContext) (e : Fixup)
    (h : AtImage img t c) : AtImage img t (fixupStep E f fixupsBase hdr c e) := by
  rw [fixupStep, chainedEntry_eq]
  exact h

theorem fresh_fixupStep {c : MachContext} {e e' : Fixup} (hap : e.Apart e') (hf : e'.Fresh c) :
    e'.Fresh (fixupStep E f fixupsBase hdr c e) := by
  rw [Fixup.Fresh] at hf ⊢
  rw [fixupStep, chainedEntry_eq, ← load64_eq_word64, load64]
  rw [← load64_eq_word64, load64] at hf
  rw [loadLE_congr fun i hi => ?_]
  · exact hf
  · refine applyWrites_of_not_inRange c.mem fun s hs => ?_
    obtain ⟨v, -, rfl⟩ := List.mem_map.mp hs
    exact (hap.slotsApart c.imgAddr).symm _ (inRange_add _ hi (by norm_num))

/-! ## A chain -/

/-- The distance to the next entry, read from the image. -/
def chainNext (im : ℕ → Byte) (o : ℕ) : ℕ := (chained64Next (word64 im o)).toNat * 4

/-- The entries of a chain. -/
def chainFixups (im : ℕ → Byte) (segment : ℕ) (os : List ℕ) : List Fixup :=
  os.map fun o => ⟨segment, o, word64 im o⟩

variable (segment : ℕ) {im : ℕ → Byte} {lo hi o : ℕ} {os : List ℕ}

theorem pairwise_chainFixups (h : Chain (chainNext im) 8 lo hi o os) (hhi : hi ≤ 2 ^ 64) :
    (chainFixups im segment os).Pairwise Fixup.Apart := by
  rw [chainFixups, List.pairwise_map]
  refine List.Pairwise.imp_of_mem (fun {x y} hx hy hxy => ?_) h.pairwise
  have hx' := h.bounds x hx
  have hy' := h.bounds y hy
  exact ⟨by change x + 8 ≤ _; omega, by change y + 8 ≤ _; omega, .inl hxy⟩

/-- **The chain loop acts on the entries of the pristine chain**, as far as its bound goes. -/
theorem chainedChain_eq (h : Chain (chainNext im) 8 lo hi o os) (hhi : hi ≤ 2 ^ 64) (n : ℕ)
    (c : MachContext) (hf : ∀ e ∈ chainFixups im segment (os.take n), e.Fresh c) :
    chainedChain E f fixupsBase hdr segment n c (c.imgAddr + BitVec.ofNat 64 o) =
      (chainFixups im segment (os.take n)).foldl (fixupStep E f fixupsBase hdr) c := by
  induction h generalizing n c with
  | @last o h1 h2 h3 =>
    cases n with
    | zero => rfl
    | succ n =>
      have hraw : load64 c.mem (c.imgAddr + BitVec.ofNat 64 o) = word64 im o := by
        rw [load64_eq_word64]
        exact hf ⟨segment, o, word64 im o⟩ (by simp [chainFixups])
      have hnext : chained64Next (word64 im o) = 0#16 := by
        rw [chainNext, Nat.mul_eq_zero] at h3
        exact BitVec.eq_of_toNat_eq (h3.resolve_right (by norm_num))
      rw [chainedChain, hraw, hnext, if_pos rfl, List.take_of_length_le (by simp)]
      rfl
  | @step o os h1 h2 h3 h4 h5 ih =>
    cases n with
    | zero => rfl
    | succ n =>
      have hraw : load64 c.mem (c.imgAddr + BitVec.ofNat 64 o) = word64 im o := by
        rw [load64_eq_word64]
        exact hf ⟨segment, o, word64 im o⟩ (by simp [chainFixups])
      have hnext : chained64Next (word64 im o) ≠ 0#16 := fun e => h3 (by rw [chainNext, e]; rfl)
      have hpair := pairwise_chainFixups segment (.step h1 h2 h3 h4 h5) hhi
      rw [chainFixups, List.map_cons, List.pairwise_cons] at hpair
      have hstep : ∀ e ∈ chainFixups im segment (os.take n),
          e.Fresh (fixupStep E f fixupsBase hdr c ⟨segment, o, word64 im o⟩) := fun e he =>
        fresh_fixupStep E f fixupsBase hdr
          (hpair.1 e (List.map_subset _ (List.take_subset n os) he))
          (hf e (List.mem_cons_of_mem _ he))
      have himg := (atImage_fixupStep E f fixupsBase hdr c ⟨segment, o, word64 im o⟩ ⟨rfl, rfl⟩).1
      have hrec := ih n _ hstep
      rw [himg, chainNext, ← add_ofNat_add] at hrec
      rw [chainedChain, hraw, if_neg hnext]
      exact hrec

/-! ## A page -/

/-- A page start that is neither `MAL_DYLD_CHAINED_PTR_START_NONE` nor marked
`MAL_DYLD_CHAINED_PTR_START_MULTI`. -/
def HasChain (pageStart : BitVec 16) : Prop :=
  pageStart ≠ malDyldChainedPtrStartNone ∧ pageStart &&& malDyldChainedPtrStartMulti = 0#16

instance (pageStart : BitVec 16) : Decidable (HasChain pageStart) := by
  unfold HasChain; infer_instance

/-- Where a page begins in the image. -/
def ChainedStartsInSegment.pageBase (seg : ChainedStartsInSegment) (page : ℕ) : ℕ :=
  seg.segmentOffset.toNat + page * seg.pageSize.toNat

/-- The entries are the chain of the page, as read from the image. -/
def PageChain (im : ℕ → Byte) (seg : ChainedStartsInSegment) (page : ℕ) (os : List ℕ) : Prop :=
  Chain (chainNext im) 8 (seg.pageBase page) (seg.pageBase page + seg.pageSize.toNat)
    (seg.pageBase page + (seg.pageStart page).toNat) os

variable {seg : ChainedStartsInSegment} {page : ℕ}

theorem chainedPage_of_not_hasChain (h : ¬ HasChain (seg.pageStart page)) (c : MachContext) :
    chainedPage E f fixupsBase hdr segment seg c page = c := by
  unfold chainedPage
  by_cases hnone : seg.pageStart page = malDyldChainedPtrStartNone
  · rw [if_pos hnone]
  · rw [if_neg hnone, if_pos fun hmulti => h ⟨hnone, hmulti⟩]

theorem chainOffset_eq (seg : ChainedStartsInSegment) (page : ℕ) :
    seg.segmentOffset + BitVec.ofNat 64 page * seg.pageSize.zeroExtend 64 +
        (seg.pageStart page).zeroExtend 64 =
      BitVec.ofNat 64 (seg.pageBase page + (seg.pageStart page).toNat) := by
  have hz : ∀ x : BitVec 16, x.zeroExtend 64 = BitVec.ofNat 64 x.toNat := fun x => by
    rw [BitVec.ofNat_toNat]
  rw [ChainedStartsInSegment.pageBase, BitVec.ofNat_add, BitVec.ofNat_add, BitVec.ofNat_mul, hz, hz,
    BitVec.ofNat_toNat 64 seg.segmentOffset, BitVec.setWidth_eq]

/-- **A page**: the entries of its chain, up to the bound of the loop. -/
theorem chainedPage_eq (hs : HasChain (seg.pageStart page)) (h : PageChain im seg page os)
    (hhi : seg.pageBase page + seg.pageSize.toNat ≤ 2 ^ 64) (c : MachContext)
    (hf : ∀ e ∈ chainFixups im segment (os.take chainLimit), e.Fresh c) :
    chainedPage E f fixupsBase hdr segment seg c page =
      (chainFixups im segment (os.take chainLimit)).foldl (fixupStep E f fixupsBase hdr) c := by
  unfold chainedPage
  rw [if_neg hs.1, if_neg (not_not.mpr hs.2)]
  simp only [chainOffset_eq]
  exact chainedChain_eq E f fixupsBase hdr segment h hhi chainLimit c hf

/-! ## A segment -/

/-- The entries of a page. -/
def pageFixups (im : ℕ → Byte) (segment : ℕ) (seg : ChainedStartsInSegment) (chain : ℕ → List ℕ)
    (page : ℕ) : List Fixup :=
  if HasChain (seg.pageStart page) then chainFixups im segment (chain page) else []

/-- The pages of a segment lie in an image of `n` bytes and the chains of its pages are well
formed. -/
structure SegmentChains (im : ℕ → Byte) (n : ℕ) (seg : ChainedStartsInSegment)
    (chain : ℕ → List ℕ) : Prop where
  inImage : seg.segmentOffset.toNat + seg.pageCount.toNat * seg.pageSize.toNat ≤ n
  pageChain : ∀ page < seg.pageCount.toNat, HasChain (seg.pageStart page) →
    PageChain im seg page (chain page)

variable {n : ℕ} {chain : ℕ → List ℕ}

theorem SegmentChains.page_le (h : SegmentChains im n seg chain) (hp : page < seg.pageCount.toNat) :
    seg.pageBase page + seg.pageSize.toNat ≤ n := by
  have hmul := Nat.mul_le_mul_right seg.pageSize.toNat (Nat.succ_le_of_lt hp)
  have := h.inImage
  rw [Nat.succ_mul] at hmul
  rw [ChainedStartsInSegment.pageBase]
  omega

theorem SegmentChains.bounds (h : SegmentChains im n seg chain) (hp : page < seg.pageCount.toNat)
    {e : Fixup} (he : e ∈ pageFixups im segment seg chain page) :
    seg.pageBase page ≤ e.offset ∧ e.offset + 8 ≤ seg.pageBase page + seg.pageSize.toNat := by
  unfold pageFixups at he
  split_ifs at he with hs
  · obtain ⟨x, hx, rfl⟩ := List.mem_map.mp he
    exact (h.pageChain page hp hs).bounds x hx
  · exact absurd he (List.not_mem_nil)

theorem SegmentChains.pairwise (h : SegmentChains im n seg chain) (hn : n ≤ 2 ^ 64) :
    ((List.range seg.pageCount.toNat).flatMap (pageFixups im segment seg chain)).Pairwise
      Fixup.Apart := by
  refine List.pairwise_flatMap.mpr ⟨fun page hp => ?_, ?_⟩
  · have hp := List.mem_range.mp hp
    unfold pageFixups
    split_ifs with hs
    · exact pairwise_chainFixups segment (h.pageChain page hp hs) ((h.page_le hp).trans hn)
    · exact List.Pairwise.nil
  · refine List.Pairwise.imp_of_mem (fun {p q} hp hq hpq e he e' he' => ?_) List.pairwise_lt_range
    have hp := List.mem_range.mp hp
    have hq := List.mem_range.mp hq
    have hb := h.bounds segment hp he
    have hb' := h.bounds segment hq he'
    have hle := h.page_le hp
    have hle' := h.page_le hq
    have hmul := Nat.mul_le_mul_right seg.pageSize.toNat (Nat.succ_le_of_lt hpq)
    rw [Nat.succ_mul] at hmul
    simp only [ChainedStartsInSegment.pageBase] at hb hb' hle hle'
    exact ⟨by omega, by omega, .inl (by omega)⟩

/-- The segment's index names a recorded segment that is mapped. -/
def SegmentTable.Mapped (t : SegmentTable) (i : ℕ) : Prop :=
  ∃ info ∈ t.recs[i]?, info.mappedAddr ≠ 0#64

instance (t : SegmentTable) (i : ℕ) : Decidable (t.Mapped i) := by
  unfold SegmentTable.Mapped; infer_instance

theorem dumpChained64OffsetEntries_of_mapped {c : MachContext} (h : c.segments.Mapped segment) :
    dumpChained64OffsetEntries E f fixupsBase hdr segment seg c =
      (List.range seg.pageCount.toNat).foldl (chainedPage E f fixupsBase hdr segment seg) c := by
  obtain ⟨info, hinfo, hm⟩ := h
  simp only [dumpChained64OffsetEntries, Option.mem_def.mp hinfo, if_neg hm]

theorem dumpChained64OffsetEntries_of_not_mapped {c : MachContext} (h : ¬ c.segments.Mapped segment) :
    dumpChained64OffsetEntries E f fixupsBase hdr segment seg c = c := by
  unfold dumpChained64OffsetEntries
  cases hrec : c.segments.recs[segment]? with
  | none => rfl
  | some info => exact if_pos (by_contra fun hm => h ⟨info, hrec, hm⟩)

/-- The entries of a page that the walk reaches. -/
def pageVisits (im : ℕ → Byte) (segment : ℕ) (seg : ChainedStartsInSegment) (chain : ℕ → List ℕ)
    (page : ℕ) : List Fixup := (pageFixups im segment seg chain page).take chainLimit

theorem chainedPage_eq_pageVisits (h : SegmentChains im n seg chain) (hn : n ≤ 2 ^ 64)
    (hp : page < seg.pageCount.toNat) (c : MachContext)
    (hf : ∀ e ∈ pageVisits im segment seg chain page, e.Fresh c) :
    chainedPage E f fixupsBase hdr segment seg c page =
      (pageVisits im segment seg chain page).foldl (fixupStep E f fixupsBase hdr) c := by
  unfold pageVisits pageFixups at hf ⊢
  split_ifs at hf ⊢ with hs
  · rw [chainFixups, ← List.map_take] at hf ⊢
    exact chainedPage_eq E f fixupsBase hdr segment hs (h.pageChain page hp hs) ((h.page_le hp).trans hn) c hf
  · rw [chainedPage_of_not_hasChain E f fixupsBase hdr segment hs, List.take_nil, List.foldl_nil]

/-- **A segment**: the entries of its chains, of each chain as many as the bound allows. -/
theorem dumpChained64OffsetEntries_eq (h : SegmentChains im n seg chain) (hn : n ≤ 2 ^ 64)
    {c : MachContext} (hm : c.segments.Mapped segment)
    (hf : ∀ e ∈ (List.range seg.pageCount.toNat).flatMap (pageVisits im segment seg chain), e.Fresh c) :
    dumpChained64OffsetEntries E f fixupsBase hdr segment seg c =
      ((List.range seg.pageCount.toNat).flatMap (pageVisits im segment seg chain)).foldl
        (fixupStep E f fixupsBase hdr) c := by
  have hsub : ((List.range seg.pageCount.toNat).flatMap (pageVisits im segment seg chain)).Sublist
      ((List.range seg.pageCount.toNat).flatMap (pageFixups im segment seg chain)) :=
    List.Sublist.flatMap_right _ fun page _ => List.take_sublist _ _
  rw [dumpChained64OffsetEntries_of_mapped E f fixupsBase hdr segment hm]
  exact foldl_eq_foldl_flatMap (fun _ => True) (fun c e => e.Fresh c)
    (fun _ _ _ => trivial)
    (fun c e e' _ hap hf => fresh_fixupStep E f fixupsBase hdr hap hf)
    (fun page hp c _ hf =>
      chainedPage_eq_pageVisits E f fixupsBase hdr segment h hn (List.mem_range.mp hp) c hf)
    ((h.pairwise segment hn).sublist hsub) trivial hf

end Maloader
