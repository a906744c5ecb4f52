import Maloader.Chained.Relate

/-!
# The footprint of the walk

What the walk over chained fixups does depends only on the bytes of the entries it comes to, on
which segments are mapped, and on the payload; and it changes nothing but these bytes and its own
counters.

* `MachContext.silent`, `dumpChainedFixups_silent`: the log is written, never read.
* `walkEvents`, `FixupsIn`: what a walk logs; its entries lie in a set of addresses.
* `chainedStarts_of_fixup`: the entries are in segments whose starts the payload gives.
* `dumpChainedFixups_withSegments`: the recorded segments count only as far as they are mapped.
* **`dumpChainedFixups_frame`**: two walks, over memories alike where the entries lie.
-/

namespace Maloader

open ByteLib

/-! ## The log -/

/-- The context with an empty log. -/
def MachContext.silent (c : MachContext) : MachContext := { c with trace := [] }

/-- The context with another log. -/
def MachContext.withTrace (c : MachContext) (trace : List Event) : MachContext :=
  { c with trace := trace }

/-- What the walk logs. -/
def walkEvents (E : Env) (f : File) (c : MachContext) (dataoff datasize : ℕ) : List Event :=
  (dumpChainedFixups E f c.silent dataoff datasize).trace

variable (E : Env) (f : File)

/-- **The log is written, never read.** -/
theorem dumpChainedFixups_silent (c : MachContext) (dataoff datasize : ℕ) :
    dumpChainedFixups E f c dataoff datasize =
      (dumpChainedFixups E f c.silent dataoff datasize).withTrace
        (c.trace ++ walkEvents E f c dataoff datasize) := by
  have h : WalkRel (fun _ => False) (fun d d' => d' = d.withTrace (c.trace ++ d.trace))
      (chainedEntry E f dataoff (chainedFixupsHeader f dataoff))
      (chainedEntry E f dataoff (chainedFixupsHeader f dataoff)) := {
    escape := False.elim
    step_escape := fun _ _ _ => id
    same := by
      rintro d d' rfl -
      exact ⟨rfl, rfl⟩
    read := by
      rintro d d' segment loc rfl -
      rfl
    entry := by
      rintro d d' segment loc raw rfl
      rw [chainedEntry_eq, chainedEntry_eq]
      simp only [MachContext.withTrace, List.append_assoc] }
  refine dumpChainedFixups_rel SamePayload.rfl h ?_
  simp only [MachContext.withTrace, MachContext.silent, List.append_nil]

theorem trace_eq_walkEvents (c : MachContext) (dataoff datasize : ℕ) :
    (dumpChainedFixups E f c dataoff datasize).trace =
      c.trace ++ walkEvents E f c dataoff datasize := by
  rw [dumpChainedFixups_silent]
  rfl

/-- If the event is a chain entry, it lies in `F`. -/
def FixupIn (F : Set Addr) : Event → Prop
  | .fixup _ loc _ => ∀ k < 8, loc + BitVec.ofNat 64 k ∈ F
  | _ => True

instance (F : Set Addr) [DecidablePred (· ∈ F)] : (ev : Event) → Decidable (FixupIn F ev)
  | .fixup _ loc _ => inferInstanceAs (Decidable (∀ k < 8, loc + BitVec.ofNat 64 k ∈ F))
  | .copy _ _ _ | .store _ _ => inferInstanceAs (Decidable True)

/-- The chain entries in a log lie in `F`. -/
def FixupsIn (F : Set Addr) (trace : List Event) : Prop := ∀ ev ∈ trace, FixupIn F ev

instance (F : Set Addr) [DecidablePred (· ∈ F)] (trace : List Event) : Decidable (FixupsIn F trace) := by
  unfold FixupsIn; infer_instance

theorem fixupsIn_univ (trace : List Event) : FixupsIn Set.univ trace := by
  intro ev _
  cases ev with
  | fixup i loc raw => exact fun _ _ => Set.mem_univ _
  | _ => trivial

theorem FixupsIn.mono {F : Set Addr} {trace trace' : List Event} (h : FixupsIn F trace')
    (hsub : trace ⊆ trace') : FixupsIn F trace := fun ev hev => h ev (hsub hev)

/-! ## Where the entries are -/

theorem chainedStarts_of_fixup (c : MachContext) {dataoff datasize i : ℕ} {loc : Addr}
    {raw : BitVec 64} (hev : Event.fixup i loc raw ∈ walkEvents E f c dataoff datasize) :
    i < chainedSegCount f dataoff ∧ (chainedStarts f dataoff datasize i).isSome := by
  let Q : MachContext → Prop := fun d => ∀ i loc raw, Event.fixup i loc raw ∈ d.trace →
    i < chainedSegCount f dataoff ∧ (chainedStarts f dataoff datasize i).isSome
  have hstart : Q c.silent.resetCounts := fun i loc raw hmem => absurd hmem List.not_mem_nil
  refine dumpChainedFixups_chains (P := Q) hstart ?_ i loc raw hev
  rintro d i' seg page hi hseg - - - hd
  have hstarts : i' < chainedSegCount f dataoff ∧ (chainedStarts f dataoff datasize i').isSome :=
    ⟨hi, Option.isSome_of_mem hseg⟩
  have hchain : ∀ (n : ℕ) (d : MachContext) (loc : Addr), Q d →
      Q (chainedChain E f dataoff (chainedFixupsHeader f dataoff) i' n d loc) := by
    intro n
    induction n with
    | zero => exact fun d loc hd => hd
    | succ n ih =>
      intro d loc hd
      have hstep : Q (chainedEntry E f dataoff (chainedFixupsHeader f dataoff) i' d loc
          (load64 d.mem loc)) := by
        intro j loc' raw' hmem
        rw [chainedEntry_eq] at hmem
        simp only [List.mem_append, List.mem_cons, List.mem_map] at hmem
        rcases hmem with hmem | hmem | ⟨v, -, hv⟩
        · exact hd j loc' raw' hmem
        · obtain ⟨rfl, -, -⟩ := Event.fixup.inj hmem
          exact hstarts
        · exact Event.noConfusion hv
      rw [chainedChain]
      split_ifs
      · exact hstep
      · exact ih _ _ hstep
  exact hchain _ _ _ hd

/-! ## The recorded segments -/

/-- The context with another segment table. -/
def MachContext.withSegments (c : MachContext) (t : SegmentTable) : MachContext :=
  { c with segments := t }

theorem chainedChain_withSegments {fixupsBase : ℕ} {hdr : ChainedFixupsHeader} (segment n : ℕ)
    (c : MachContext) (t : SegmentTable) (loc : Addr) :
    chainedChain E f fixupsBase hdr segment n (c.withSegments t) loc =
      (chainedChain E f fixupsBase hdr segment n c loc).withSegments t := by
  induction n generalizing c loc with
  | zero => rfl
  | succ n ih =>
    have hentry : ∀ raw, chainedEntry E f fixupsBase hdr segment (c.withSegments t) loc raw =
        (chainedEntry E f fixupsBase hdr segment c loc raw).withSegments t := fun raw => by
      rw [chainedEntry_eq, chainedEntry_eq]
      rfl
    rw [chainedChain, chainedChain, apply_ite (MachContext.withSegments · t), ← ih, ← hentry]
    rfl

theorem chainedPage_withSegments {fixupsBase : ℕ} {hdr : ChainedFixupsHeader} (segment : ℕ)
    (seg : ChainedStartsInSegment) (c : MachContext) (t : SegmentTable) (page : ℕ) :
    chainedPage E f fixupsBase hdr segment seg (c.withSegments t) page =
      (chainedPage E f fixupsBase hdr segment seg c page).withSegments t := by
  unfold chainedPage
  dsimp only
  split_ifs
  · rfl
  · rfl
  · exact chainedChain_withSegments E f segment chainLimit c t _

/-- **The recorded segments count** only as far as those that have starts are mapped. -/
theorem dumpChainedFixups_withSegments (c : MachContext) (t : SegmentTable) {dataoff datasize : ℕ}
    (h : ∀ i < chainedSegCount f dataoff, (chainedStarts f dataoff datasize i).isSome →
      (t.Mapped i ↔ c.segments.Mapped i)) :
    dumpChainedFixups E f (c.withSegments t) dataoff datasize =
      (dumpChainedFixups E f c dataoff datasize).withSegments t := by
  let R (d d' : MachContext) : Prop := d = d'.withSegments t ∧ d'.segments = c.segments
  have hstart : R (c.withSegments t).resetCounts c.resetCounts := ⟨rfl, rfl⟩
  refine And.left (b := (dumpChainedFixups E f c dataoff datasize).segments = c.segments) ?_
  show R _ _
  unfold dumpChainedFixups
  dsimp only
  split_ifs
  · exact hstart
  · exact hstart
  · exact hstart
  · refine List.foldl_rel hstart fun i hi d d' hr => ?_
    obtain ⟨rfl, hsegs⟩ := hr
    rw [chainedSegment_eq, chainedSegment_eq]
    cases hseg : chainedStarts f dataoff datasize i with
    | none => exact ⟨rfl, hsegs⟩
    | some seg =>
      dsimp only
      have hiff : t.Mapped i ↔ d'.segments.Mapped i := by
        rw [hsegs]
        exact h i (List.mem_range.mp hi) (by rw [hseg]; rfl)
      by_cases hm : t.Mapped i
      · rw [dumpChained64OffsetEntries_of_mapped E f dataoff _ i (c := d'.withSegments t) hm,
          dumpChained64OffsetEntries_of_mapped E f dataoff _ i (hiff.mp hm)]
        refine List.foldl_rel ⟨rfl, hsegs⟩ fun page _ e e' he => ?_
        obtain ⟨rfl, hsegs'⟩ := he
        refine ⟨chainedPage_withSegments E f i seg e' t page, ?_⟩
        have hkeep : (chainedPage E f dataoff (chainedFixupsHeader f dataoff) i seg e' page).segments =
            e'.segments := by
          unfold chainedPage
          dsimp only
          split_ifs
          · rfl
          · rfl
          · exact (atImage_chainedChain E f dataoff _ i chainLimit e' _).2
        exact hkeep.trans hsegs'
      · rw [dumpChained64OffsetEntries_of_not_mapped E f dataoff _ i (c := d'.withSegments t) hm,
          dumpChained64OffsetEntries_of_not_mapped E f dataoff _ i (mt hiff.mpr hm)]
        exact ⟨rfl, hsegs⟩

/-! ## Two walks -/

/-- The context over another memory. -/
def MachContext.withMem (c : MachContext) (m : Mem 64) : MachContext := { c with mem := m }

variable {E f} {f' : File} {dataoff datasize : ℕ} {F : Set Addr} {c c' : MachContext}

theorem SamePayload.fixupValue_eq (hf : SamePayload f f' dataoff datasize) (img : Addr)
    (raw : BitVec 64) : fixupValue E f dataoff (chainedFixupsHeader f dataoff) img raw =
      fixupValue E f' dataoff (chainedFixupsHeader f' dataoff) img raw := by
  rw [fixupValue, fixupValue, hf.header, hf.importName]

theorem load64_congr {m m' : Mem 64} (hm : Set.EqOn m m' F) {loc : Addr}
    (hloc : ∀ k < 8, loc + BitVec.ofNat 64 k ∈ F) : load64 m loc = load64 m' loc := by
  rw [load64, load64, loadLE_congr fun k hk => hm (hloc k hk)]

theorem mem_of_inRange_slot {loc x : Addr} (hloc : ∀ k < 8, loc + BitVec.ofNat 64 k ∈ F)
    (hx : InRange loc 8 x) : x ∈ F := by
  have h := hloc _ hx
  rwa [add_ofNat_toNat_sub] at h

theorem eqOn_entry {m m' : Mem 64} (hm : Set.EqOn m m' F) {loc : Addr}
    (hloc : ∀ k < 8, loc + BitVec.ofNat 64 k ∈ F) (value : Option (BitVec 64)) :
    Set.EqOn (applyWrites 8 m (value.toList.map fun v => (loc, v.toNat)))
        (applyWrites 8 m' (value.toList.map fun v => (loc, v.toNat))) F ∧
      Set.EqOn (applyWrites 8 m' (value.toList.map fun v => (loc, v.toNat))) m' (compl F) := by
  cases value with
  | none => exact ⟨hm, fun x _ => rfl⟩
  | some v =>
    exact ⟨eqOn_overlay hm fun _ _ _ => rfl,
      eqOn_overlay_compl m' _ fun _ hx => mem_of_inRange_slot hloc hx⟩

variable (c c') in
theorem dumpChainedFixups_frame_silent (hf : SamePayload f f' dataoff datasize)
    (himg : c'.imgAddr = c.imgAddr) (hsegs : c'.segments = c.segments) (htrace : c.trace = [])
    (htrace' : c'.trace = [])
    (hcount : c'.chainedUnresolvedBindCount = c.chainedUnresolvedBindCount)
    (hmem : Set.EqOn c.mem c'.mem F)
    (hF : FixupsIn F (dumpChainedFixups E f c dataoff datasize).trace) :
    ∃ m, dumpChainedFixups E f' c' dataoff datasize =
        c'.withImage ((dumpChainedFixups E f c dataoff datasize).withMem m) ∧
      Set.EqOn (dumpChainedFixups E f c dataoff datasize).mem m F ∧
      Set.EqOn m c'.mem (compl F) := by
  let X (d : MachContext) : Prop := ¬ FixupsIn F d.trace
  let R (d d' : MachContext) : Prop := X d ∨ ∃ m, d' = c'.withImage (d.withMem m) ∧
    Set.EqOn d.mem m F ∧ Set.EqOn m c'.mem (compl F)
  have hgrow : ∀ segment d loc raw, d.trace ⊆
      (chainedEntry E f dataoff (chainedFixupsHeader f dataoff) segment d loc raw).trace := by
    intro segment d loc raw
    rw [chainedEntry_eq]
    exact List.subset_append_left _ _
  have hslot : ∀ {segment d loc raw},
      FixupsIn F (chainedEntry E f dataoff (chainedFixupsHeader f dataoff) segment d loc raw).trace →
        ∀ k < 8, loc + BitVec.ofNat 64 k ∈ F := by
    intro segment d loc raw h
    rw [chainedEntry_eq] at h
    exact h (.fixup segment loc raw) (by simp)
  have h : WalkRel X R (chainedEntry E f dataoff (chainedFixupsHeader f dataoff))
      (chainedEntry E f' dataoff (chainedFixupsHeader f' dataoff)) := {
    escape := Or.inl
    step_escape := fun segment loc raw hx hF => hx (hF.mono (hgrow segment _ loc raw))
    same := by
      rintro d d' (hx | ⟨m, rfl, -, -⟩) hnot
      · exact absurd hx hnot
      · exact ⟨rfl, rfl⟩
    read := by
      rintro d d' segment loc (hx | ⟨m, rfl, hm, -⟩) hnot
      · exact absurd (fun hF => hx (hF.mono (hgrow segment _ loc _))) hnot
      · exact load64_congr hm (hslot (not_not.mp hnot))
    entry := by
      rintro d d' segment loc raw (hx | ⟨m, rfl, hm, hm'⟩)
      · exact Or.inl fun hF => hx (hF.mono (hgrow segment _ loc raw))
      · by_cases hF : FixupsIn F
            (chainedEntry E f dataoff (chainedFixupsHeader f dataoff) segment d loc raw).trace
        · obtain ⟨hin, hout⟩ := eqOn_entry hm (hslot hF)
            (fixupValue E f' dataoff (chainedFixupsHeader f' dataoff) d.imgAddr raw)
          refine Or.inr ⟨_, ?_, ?_, hout.trans hm'⟩
          · rw [chainedEntry_eq, chainedEntry_eq, isUnresolved, isUnresolved, hf.fixupValue_eq]
            rfl
          · rw [chainedEntry_eq, hf.fixupValue_eq]
            exact hin
        · exact Or.inl hF }
  have hstart : R c.resetCounts c'.resetCounts := by
    refine Or.inr ⟨c'.mem, ?_, hmem, fun x _ => rfl⟩
    unfold MachContext.resetCounts MachContext.withImage MachContext.withMem
    rw [← himg, ← hsegs, htrace, ← htrace', ← hcount]
  exact (dumpChainedFixups_rel hf h hstart).resolve_left (not_not.mpr hF)

variable (c c') in
/-- **Two walks over one payload**, over memories alike where the entries of the first one lie: they do
the same there, and the second one changes nothing else. -/
theorem dumpChainedFixups_frame (hf : SamePayload f f' dataoff datasize)
    (himg : c'.imgAddr = c.imgAddr)
    (hsegs : ∀ i < chainedSegCount f dataoff, (chainedStarts f dataoff datasize i).isSome →
      (c'.segments.Mapped i ↔ c.segments.Mapped i))
    (hcount : c'.chainedUnresolvedBindCount = c.chainedUnresolvedBindCount)
    (hmem : Set.EqOn c.mem c'.mem F) (hF : FixupsIn F (walkEvents E f c dataoff datasize)) :
    ∃ m, dumpChainedFixups E f' c' dataoff datasize =
        ((c'.withImage ((dumpChainedFixups E f c dataoff datasize).withMem m)).withSegments
          c'.segments).withTrace (c'.trace ++ walkEvents E f c dataoff datasize) ∧
      Set.EqOn (dumpChainedFixups E f c dataoff datasize).mem m F ∧
      Set.EqOn m c'.mem (compl F) := by
  have hsegs' : ∀ i < chainedSegCount f' dataoff, (chainedStarts f' dataoff datasize i).isSome →
      (c'.segments.Mapped i ↔ c.segments.Mapped i) := by
    rw [← hf.segCount]
    intro i hi hstarts
    exact hsegs i hi (by rwa [hf.starts])
  obtain ⟨m, heq, hin, hout⟩ := dumpChainedFixups_frame_silent c.silent
    (c'.silent.withSegments c.segments) hf himg rfl rfl rfl hcount hmem hF
  have hback : dumpChainedFixups E f' c'.silent dataoff datasize =
      (dumpChainedFixups E f' (c'.silent.withSegments c.segments) dataoff datasize).withSegments
        c'.segments :=
    dumpChainedFixups_withSegments E f' (c'.silent.withSegments c.segments) c'.segments hsegs'
  have hevents : walkEvents E f' c' dataoff datasize = walkEvents E f c dataoff datasize := by
    rw [walkEvents, hback, heq]
    rfl
  refine ⟨m, ?_, ?_, hout⟩
  · rw [dumpChainedFixups_silent E f' c', hevents, hback, heq, dumpChainedFixups_silent E f c]
    rfl
  · rw [dumpChainedFixups_silent E f c]
    exact hin

theorem eqOn_dumpChainedFixups (hF : FixupsIn F (walkEvents E f c dataoff datasize)) :
    Set.EqOn (dumpChainedFixups E f c dataoff datasize).mem c.mem (compl F) := by
  obtain ⟨m, heq, -, hout⟩ := dumpChainedFixups_frame c c SamePayload.rfl rfl (fun _ _ _ => Iff.rfl) rfl
    (fun _ _ => rfl) hF
  have hmem : (dumpChainedFixups E f c dataoff datasize).mem = m := by
    rw [heq]
    rfl
  rwa [hmem]

end Maloader
