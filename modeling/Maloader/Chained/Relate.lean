import Maloader.Chained.Reference

/-!
# Two walks side by side

Two walks over one payload, from related contexts, end in related contexts if every entry keeps the
relation. Where a walk does something that is excluded in the end, the relation may be given up.

* `WalkRel`: a relation kept by the entries, with an escape.
* `chainedChain_rel`, `chainedPage_rel`, `dumpChained64OffsetEntries_rel`: by the loops;
  **`dumpChainedFixups_rel`**: the payload.
* **`dumpChainedFixups_inv`**, `dumpChainedFixups_chains`, `dumpChainedFixups_pages`: an invariant of
  one walk, by entries and by chains; `atImage_dumpChainedFixups`, `trace_dumpChainedFixups`: what a walk keeps.
* `MachContext.withImage`, **`dumpChainedFixups_withImage`**: the part of the context it works on.
-/

namespace Maloader

open ByteLib ActionLib

/-- Acting on an entry: the segment, the context, the location and the word read there. -/
abbrev EntryStep := ℕ → MachContext → Addr → BitVec 64 → MachContext

/-- `R` is kept by the entries `step` of one walk and `step'` of another, as long as the first one
is not in `X`, from where there is no way back. -/
structure WalkRel (X : MachContext → Prop) (R : MachContext → MachContext → Prop)
    (step step' : EntryStep) : Prop where
  escape : ∀ {c c'}, X c → R c c'
  step_escape : ∀ {c} segment loc raw, X c → X (step segment c loc raw)
  same : ∀ {c c'}, R c c' → ¬ X c → c.imgAddr = c'.imgAddr ∧ c.segments = c'.segments
  read : ∀ {c c'} segment loc, R c c' → ¬ X (step segment c loc (load64 c.mem loc)) →
    load64 c.mem loc = load64 c'.mem loc
  entry : ∀ {c c'} segment loc raw, R c c' → R (step segment c loc raw) (step' segment c' loc raw)

variable {E E' : Env} {f f' : File} {fixupsBase : ℕ} {hdr hdr' : ChainedFixupsHeader}
  {X : MachContext → Prop} {R : MachContext → MachContext → Prop}

section Loops

variable (h : WalkRel X R (chainedEntry E f fixupsBase hdr) (chainedEntry E' f' fixupsBase hdr'))
include h

theorem chainedChain_escape (segment n : ℕ) {c : MachContext} (loc : Addr) (hx : X c) :
    X (chainedChain E f fixupsBase hdr segment n c loc) := by
  induction n generalizing c loc with
  | zero => exact hx
  | succ n ih =>
    have hstep := h.step_escape segment loc (load64 c.mem loc) hx
    rw [chainedChain]
    split_ifs
    · exact hstep
    · exact ih _ hstep

theorem chainedChain_rel (segment n : ℕ) {c c' : MachContext} (loc : Addr) (hr : R c c') :
    R (chainedChain E f fixupsBase hdr segment n c loc)
      (chainedChain E' f' fixupsBase hdr' segment n c' loc) := by
  induction n generalizing c c' loc with
  | zero => exact hr
  | succ n ih =>
    by_cases hx : X (chainedEntry E f fixupsBase hdr segment c loc (load64 c.mem loc))
    · refine h.escape ?_
      rw [chainedChain]
      split_ifs
      · exact hx
      · exact chainedChain_escape h segment n _ hx
    · have hraw := h.read segment loc hr hx
      have hstep := h.entry segment loc (load64 c.mem loc) hr
      rw [chainedChain, chainedChain, ← hraw]
      split_ifs
      · exact hstep
      · exact ih _ hstep

theorem chainedPage_rel (segment : ℕ) (seg : ChainedStartsInSegment) (page : ℕ) {c c' : MachContext}
    (hr : R c c') :
    R (chainedPage E f fixupsBase hdr segment seg c page)
      (chainedPage E' f' fixupsBase hdr' segment seg c' page) := by
  unfold chainedPage
  dsimp only
  split_ifs
  · exact hr
  · exact hr
  · by_cases hx : X c
    · exact h.escape (chainedChain_escape h segment _ _ hx)
    · rw [(h.same hr hx).1]
      exact chainedChain_rel h segment _ _ hr

theorem chainedPage_escape (segment : ℕ) (seg : ChainedStartsInSegment) (page : ℕ)
    {c : MachContext} (hx : X c) : X (chainedPage E f fixupsBase hdr segment seg c page) := by
  unfold chainedPage
  dsimp only
  split_ifs
  · exact hx
  · exact hx
  · exact chainedChain_escape h segment _ _ hx

theorem dumpChained64OffsetEntries_escape (segment : ℕ) (seg : ChainedStartsInSegment)
    {c : MachContext} (hx : X c) :
    X (dumpChained64OffsetEntries E f fixupsBase hdr segment seg c) := by
  unfold dumpChained64OffsetEntries
  split
  · exact hx
  · split_ifs
    · exact hx
    · exact List.foldlRecOn _ _ hx fun _ hx page _ => chainedPage_escape h segment seg page hx

theorem dumpChained64OffsetEntries_rel (segment : ℕ) (seg : ChainedStartsInSegment)
    {c c' : MachContext} (hr : R c c') :
    R (dumpChained64OffsetEntries E f fixupsBase hdr segment seg c)
      (dumpChained64OffsetEntries E' f' fixupsBase hdr' segment seg c') := by
  by_cases hx : X c
  · exact h.escape (dumpChained64OffsetEntries_escape h segment seg hx)
  · unfold dumpChained64OffsetEntries
    rw [← (h.same hr hx).2]
    split
    · exact hr
    · split_ifs
      · exact hr
      · exact List.foldl_rel hr fun page _ _ _ hr => chainedPage_rel h segment seg page hr

end Loops

/-- The two files hold the same payload at `dataoff`. -/
structure SamePayload (f f' : File) (dataoff datasize : ℕ) : Prop where
  header : chainedFixupsHeader f dataoff = chainedFixupsHeader f' dataoff
  segCount : chainedSegCount f dataoff = chainedSegCount f' dataoff
  starts : ∀ i, chainedStarts f dataoff datasize i = chainedStarts f' dataoff datasize i
  importName : ∀ hdr ordinal,
    chainedImportName f dataoff hdr ordinal = chainedImportName f' dataoff hdr ordinal

theorem SamePayload.rfl {dataoff datasize : ℕ} : SamePayload f f dataoff datasize :=
  ⟨Eq.refl _, Eq.refl _, fun _ => Eq.refl _, fun _ _ => Eq.refl _⟩

/-- **Two walks over one payload.** -/
theorem dumpChainedFixups_rel {dataoff datasize : ℕ} (hf : SamePayload f f' dataoff datasize)
    (h : WalkRel X R (chainedEntry E f dataoff (chainedFixupsHeader f dataoff))
      (chainedEntry E' f' dataoff (chainedFixupsHeader f' dataoff))) {c c' : MachContext}
    (hr : R { c with chainedRebaseCount := 0#32, chainedBindCount := 0#32 }
      { c' with chainedRebaseCount := 0#32, chainedBindCount := 0#32 }) :
    R (dumpChainedFixups E f c dataoff datasize) (dumpChainedFixups E' f' c' dataoff datasize) := by
  have hcount : u32 f (dataoff + (chainedFixupsHeader f' dataoff).startsOffset) =
      u32 f' (dataoff + (chainedFixupsHeader f' dataoff).startsOffset) := by
    have hc := hf.segCount
    rw [chainedSegCount, chainedSegCount, hf.header] at hc
    exact BitVec.eq_of_toNat_eq hc
  unfold dumpChainedFixups
  dsimp only
  rw [hf.header, hcount] at *
  split_ifs
  · exact hr
  · exact hr
  · exact hr
  · refine List.foldl_rel hr fun i _ c c' hr => ?_
    rw [← hf.header, chainedSegment_eq, hf.header, chainedSegment_eq, ← hf.starts i]
    cases chainedStarts f dataoff datasize i with
    | none => exact hr
    | some seg => exact dumpChained64OffsetEntries_rel h i seg hr

/-! ## One walk -/

/-- The counters the walk starts from. -/
def MachContext.resetCounts (c : MachContext) : MachContext :=
  { c with chainedRebaseCount := 0#32, chainedBindCount := 0#32 }

/-- **What every entry keeps, the walk keeps.** -/
theorem dumpChainedFixups_inv {dataoff datasize : ℕ} {P : MachContext → Prop} {c : MachContext}
    (hP : P c.resetCounts)
    (hentry : ∀ c segment loc raw, P c →
      P (chainedEntry E f dataoff (chainedFixupsHeader f dataoff) segment c loc raw)) :
    P (dumpChainedFixups E f c dataoff datasize) := by
  have h : WalkRel (fun _ => False) (fun c c' => c' = c ∧ P c)
      (chainedEntry E f dataoff (chainedFixupsHeader f dataoff))
      (chainedEntry E f dataoff (chainedFixupsHeader f dataoff)) := {
    escape := False.elim
    step_escape := fun _ _ _ => id
    same := by
      rintro c c' ⟨rfl, -⟩ -
      exact ⟨rfl, rfl⟩
    read := by
      rintro c c' segment loc ⟨rfl, -⟩ -
      rfl
    entry := by
      rintro c c' segment loc raw ⟨rfl, hc⟩
      exact ⟨rfl, hentry _ segment loc raw hc⟩ }
  exact (dumpChainedFixups_rel SamePayload.rfl h ⟨rfl, hP⟩).2

/-- Where the chain of a page begins in the image, modulo `2 ^ 64`. -/
def ChainedStartsInSegment.chainStart (seg : ChainedStartsInSegment) (page : ℕ) : BitVec 64 :=
  seg.segmentOffset + BitVec.ofNat 64 page * seg.pageSize.zeroExtend 64 +
    (seg.pageStart page).zeroExtend 64

theorem chainedPage_of_hasChain {segment page : ℕ} {seg : ChainedStartsInSegment} {c : MachContext}
    (hs : HasChain (seg.pageStart page)) : chainedPage E f fixupsBase hdr segment seg c page =
      chainedChain E f fixupsBase hdr segment chainLimit c (c.imgAddr + seg.chainStart page) := by
  rw [chainedPage, if_neg hs.1, if_neg (not_not.mpr hs.2)]
  rfl

variable (E f fixupsBase hdr) in
theorem atImage_chainedChain (segment n : ℕ) (c : MachContext) (loc : Addr) :
    AtImage c.imgAddr c.segments (chainedChain E f fixupsBase hdr segment n c loc) := by
  induction n generalizing c loc with
  | zero => exact ⟨rfl, rfl⟩
  | succ n ih =>
    rw [chainedChain, chainedEntry_eq]
    split_ifs
    · exact ⟨rfl, rfl⟩
    · exact ih _ _

variable (E f) in
/-- The context when the walk comes to a page of segment `i`. -/
def contextAtPage (c : MachContext) (dataoff datasize i : ℕ) (seg : ChainedStartsInSegment) (page : ℕ) :
    MachContext :=
  let hdr := chainedFixupsHeader f dataoff
  (List.range page).foldl (chainedPage E f dataoff hdr i seg)
    ((List.range i).foldl (chainedSegment E f dataoff datasize hdr) c.resetCounts)

/-- **What every chain keeps, the walk keeps**, told of the context when the walk comes to the chain. -/
theorem dumpChainedFixups_pages {dataoff datasize : ℕ} {P : MachContext → Prop} {c : MachContext}
    (hP : P c.resetCounts)
    (hchain : ∀ i < chainedSegCount f dataoff, ∀ seg ∈ chainedStarts f dataoff datasize i,
      ∀ page < seg.pageCount.toNat, HasChain (seg.pageStart page) → chainedFixupsHeaderSize ≤ datasize →
      let d := contextAtPage E f c dataoff datasize i seg page
      d.segments.Mapped i → P d →
      P (chainedChain E f dataoff (chainedFixupsHeader f dataoff) i chainLimit d
        (d.imgAddr + seg.chainStart page))) :
    P (dumpChainedFixups E f c dataoff datasize) := by
  unfold dumpChainedFixups
  dsimp only
  split_ifs with hsize
  · exact hP
  · exact hP
  · exact hP
  · refine foldl_range_keeps hP fun i hi hc => ?_
    rw [chainedSegment_eq]
    cases hseg : chainedStarts f dataoff datasize i with
    | none => exact hc
    | some seg =>
      dsimp only
      by_cases hm : ((List.range i).foldl (chainedSegment E f dataoff datasize
          (chainedFixupsHeader f dataoff)) c.resetCounts).segments.Mapped i
      · refine (dumpChained64OffsetEntries_of_mapped E f dataoff _ i hm).symm ▸ ?_
        -- the walk over the pages keeps the table, so the segment stays mapped
        refine (foldl_range_keeps (P := fun c => c.segments.Mapped i ∧ P c) ⟨hm, hc⟩ ?_).2
        rintro page hp ⟨hm, hc⟩
        by_cases hs : HasChain (seg.pageStart page)
        · rw [chainedPage_of_hasChain hs, (atImage_chainedChain E f _ _ i chainLimit _ _).2]
          exact ⟨hm, hchain i hi seg hseg page hp hs (not_lt.mp hsize) hm hc⟩
        · rw [chainedPage_of_not_hasChain E f dataoff _ i hs]
          exact ⟨hm, hc⟩
      · refine (dumpChained64OffsetEntries_of_not_mapped E f dataoff _ i hm).symm ▸ ?_
        exact hc

theorem dumpChainedFixups_chains {dataoff datasize : ℕ} {P : MachContext → Prop} {c : MachContext}
    (hP : P c.resetCounts)
    (hchain : ∀ c i seg page, i < chainedSegCount f dataoff →
      seg ∈ chainedStarts f dataoff datasize i → page < seg.pageCount.toNat →
      HasChain (seg.pageStart page) → c.segments.Mapped i → P c →
      P (chainedChain E f dataoff (chainedFixupsHeader f dataoff) i chainLimit c
        (c.imgAddr + seg.chainStart page))) :
    P (dumpChainedFixups E f c dataoff datasize) :=
  dumpChainedFixups_pages hP fun i hi seg hseg page hp hs _ hm hc =>
    hchain _ i seg page hi hseg hp hs hm hc

variable (E f)

theorem atImage_dumpChainedFixups (c : MachContext) (dataoff datasize : ℕ) :
    AtImage c.imgAddr c.segments (dumpChainedFixups E f c dataoff datasize) := by
  have hstart : AtImage c.imgAddr c.segments c.resetCounts := ⟨rfl, rfl⟩
  refine dumpChainedFixups_inv hstart fun c' _ _ _ h => ?_
  rw [chainedEntry_eq]
  exact h

theorem trace_dumpChainedFixups (c : MachContext) (dataoff datasize : ℕ) :
    c.trace <+: (dumpChainedFixups E f c dataoff datasize).trace := by
  have hstart : c.trace <+: c.resetCounts.trace := List.prefix_rfl
  refine dumpChainedFixups_inv (P := fun c' => c.trace <+: c'.trace) hstart fun c' _ _ _ h => ?_
  rw [chainedEntry_eq]
  exact h.trans (List.prefix_append _ _)

/-! ## The rest of the context -/

/-- `d` with the part of `c` that chained fixups work on. -/
def MachContext.withImage (d c : MachContext) : MachContext :=
  { d with
    imgAddr := c.imgAddr
    segments := c.segments
    mem := c.mem
    trace := c.trace
    chainedRebaseCount := c.chainedRebaseCount
    chainedBindCount := c.chainedBindCount
    chainedUnresolvedBindCount := c.chainedUnresolvedBindCount }

/-- **The walk works on its part of the context** and carries the rest along. -/
theorem dumpChainedFixups_withImage (d c : MachContext) (dataoff datasize : ℕ) :
    dumpChainedFixups E f (d.withImage c) dataoff datasize =
      d.withImage (dumpChainedFixups E f c dataoff datasize) := by
  have h : WalkRel (fun _ => False) (fun c c' => c' = d.withImage c)
      (chainedEntry E f dataoff (chainedFixupsHeader f dataoff))
      (chainedEntry E f dataoff (chainedFixupsHeader f dataoff)) := {
    escape := False.elim
    step_escape := fun _ _ _ => id
    same := by
      rintro c c' rfl -
      exact ⟨rfl, rfl⟩
    read := by
      rintro c c' segment loc rfl -
      rfl
    entry := by
      rintro c c' segment loc raw rfl
      rw [chainedEntry_eq, chainedEntry_eq]
      rfl }
  exact dumpChainedFixups_rel SamePayload.rfl h rfl

end Maloader
