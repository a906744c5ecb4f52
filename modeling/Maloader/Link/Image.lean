import Mathlib.Data.Nat.Bitwise
import Maloader.Link.Payload
import Maloader.Loader.Slide

/-!
# Writing an image with chained fixups

A linker puts pointers into an image as chains and describes the chains in a payload; the loader walks
the chains and puts the pointers' values there.

* `ChainedPayload.fixups`, `pointers`, `chain`: the entries of the chains, the pointers they are for, and
  their places.
* `Spells`, `payloadFixups_of_spells`, **`wellFormedChains_of_spells`**: an image with these entries.
* `ChainedPayload.link`, `spells_link`: the entries written into a memory.
* `Pointer.value`, **`dumpChainedFixups_link`**: linking and then loading.
-/

namespace Maloader

open ByteLib

/-! ## Entries and pointers -/

/-- Where page `p` of a segment begins. -/
def ChainedSegment.pageBase (s : ChainedSegment) (p : ℕ) : ℕ := s.offset + p * 0x1000

/-- The pointers of page `p`. -/
def ChainedSegment.pageAt (s : ChainedSegment) (p : ℕ) : List (ℕ × Pointer) := s.pages[p]?.getD []

theorem ChainedSegment.pageAt_eq {s : ChainedSegment} {p : ℕ} (hp : p < s.pages.length) :
    s.pageAt p = s.pages[p] := by
  rw [pageAt, List.getElem?_eq_getElem hp, Option.getD_some]

namespace ChainedPayload

variable (P : ChainedPayload)

/-- The chains of segment `i`, if it has any. -/
def segmentAt (i : ℕ) : Option ChainedSegment := P.segments[i]?.join

/-- What is collected over the pages of a segment. -/
def overSegment {α : Type} (g : ℕ → ChainedSegment → ℕ → List α) (i : ℕ) : List α :=
  (P.segmentAt i).elim [] fun s => (List.range s.pages.length).flatMap (g i s)

/-- What is collected over the pages of all segments. -/
def overPages {α : Type} (g : ℕ → ChainedSegment → ℕ → List α) : List α :=
  (List.range P.segments.length).flatMap (P.overSegment g)

/-- The entries of a page. -/
def pageEntries (i : ℕ) (s : ChainedSegment) (p : ℕ) : List Fixup :=
  (pageWords (s.pageAt p)).map fun w => ⟨i, s.pageBase p + w.1, w.2⟩

/-- The entries of the chains. -/
def fixups : List Fixup := P.overPages pageEntries

/-- The pointers at their places in the image. -/
def pointers : List (ℕ × Pointer) :=
  P.overPages fun _ s p => (s.pageAt p).map fun x => (s.pageBase p + x.1, x.2)

/-- The places of a chain. -/
def chain (i p : ℕ) : List ℕ :=
  (P.segmentAt i).elim [] fun s => (s.pageAt p).map fun x => s.pageBase p + x.1

/-- The entries are in the image. -/
def Spells (im : ℕ → Byte) : Prop := ∀ e ∈ P.fixups, word64 im e.offset = e.raw

variable {P} {n : ℕ}

theorem mem_of_segmentAt {i : ℕ} {s : ChainedSegment} (h : P.segmentAt i = some s) :
    i < P.segments.length ∧ P.segments[i]? = some (some s) ∧ some s ∈ P.segments := by
  have hget : P.segments[i]? = some (some s) := Option.join_eq_some_iff.mp h
  exact ⟨(List.getElem?_eq_some_iff.mp hget).1, hget, List.mem_of_getElem? hget⟩

theorem mem_overPages {α : Type} {g : ℕ → ChainedSegment → ℕ → List α} {a : α} :
    a ∈ P.overPages g ↔ ∃ i s, P.segmentAt i = some s ∧ ∃ p < s.pages.length, a ∈ g i s p := by
  simp only [overPages, overSegment, List.mem_flatMap, List.mem_range]
  constructor
  · rintro ⟨i, -, ha⟩
    cases hs : P.segmentAt i with
    | none => simp [hs] at ha
    | some s =>
      rw [hs, Option.elim_some, List.mem_flatMap] at ha
      obtain ⟨p, hp, ha⟩ := ha
      exact ⟨i, s, hs, p, List.mem_range.mp hp, ha⟩
  · rintro ⟨i, s, hs, p, hp, ha⟩
    refine ⟨i, (mem_of_segmentAt hs).1, ?_⟩
    rw [hs, Option.elim_some]
    exact List.mem_flatMap.mpr ⟨p, List.mem_range.mpr hp, ha⟩

theorem Fits.page (h : P.Fits n) {i : ℕ} {s : ChainedSegment} (hs : P.segmentAt i = some s) (p : ℕ) :
    LinkedPage (s.pageAt p) ∧ ∀ x ∈ s.pageAt p, P.Refers x.2 := by
  by_cases hp : p < s.pages.length
  · rw [ChainedSegment.pageAt_eq hp]
    exact h.linked s (mem_of_segmentAt hs).2.2 _ (List.getElem_mem hp)
  · have hnil : s.pageAt p = [] := by
      rw [ChainedSegment.pageAt, List.getElem?_eq_none (Nat.not_lt.mp hp), Option.getD_none]
    rw [hnil]
    exact ⟨⟨by simp, .nil⟩, by simp⟩

theorem Fits.apart (h : P.Fits n) {i j : ℕ} {s s' : ChainedSegment} (hs : P.segmentAt i = some s)
    (hs' : P.segmentAt j = some s') (hij : i < j) :
    s.pageBase s.pages.length ≤ s'.pageBase 0 ∨ s'.pageBase s'.pages.length ≤ s.pageBase 0 := by
  obtain ⟨hi, hget, -⟩ := mem_of_segmentAt hs
  obtain ⟨hj, hget', -⟩ := mem_of_segmentAt hs'
  have hpair := List.pairwise_iff_getElem.mp (List.pairwise_filterMap.mp h.disjoint) i j hi hj hij
  have hd := hpair s (Option.some.inj ((List.getElem?_eq_getElem hi).symm.trans hget)) s'
    (Option.some.inj ((List.getElem?_eq_getElem hj).symm.trans hget'))
  rw [ChainedSegment.pageBase, ChainedSegment.pageBase, ChainedSegment.pageBase, ChainedSegment.pageBase]
  omega

/-! ## An image with these entries -/

theorem hasChain_encodePageStart {x : ℕ × Pointer} {page : List (ℕ × Pointer)}
    (h : LinkedPage (x :: page)) : HasChain (BitVec.ofNat 16 (encodePageStart (x :: page))) := by
  have hle := (h.fits x List.mem_cons_self).2
  have hstart : encodePageStart (x :: page) = x.1 := rfl
  have hnat : (BitVec.ofNat 16 x.1).toNat = x.1 := by
    rw [BitVec.toNat_ofNat]
    omega
  rw [hstart]
  constructor
  · intro he
    have hne := congrArg BitVec.toNat he
    rw [hnat] at hne
    have hnone : malDyldChainedPtrStartNone.toNat = 0xFFFF := rfl
    omega
  · have hmulti : malDyldChainedPtrStartMulti.toNat = 2 ^ 15 := rfl
    apply BitVec.eq_of_toNat_eq
    rw [BitVec.toNat_and, hnat, hmulti, Nat.and_two_pow, Nat.testBit_lt_two_pow (by omega)]
    rfl

section Spells

variable {f : File} {dataoff : ℕ} {t : SegmentTable} {im : ℕ → Byte}

theorem pageFixups_of_spells (hfits : P.Fits n) (hspells : P.Spells im) {i p : ℕ} {s : ChainedSegment}
    {seg : ChainedStartsInSegment} (hs : P.segmentAt i = some s) (hseg : Describes s seg)
    (hp : p < s.pages.length) :
    pageFixups im i seg (P.chain i) p = pageEntries i s p := by
  have hstart := hseg.pageStart p hp
  rw [← ChainedSegment.pageAt_eq hp] at hstart
  obtain ⟨hlinked, -⟩ := hfits.page hs p
  have hbase : ∀ w ∈ pageWords (s.pageAt p), word64 im (s.pageBase p + w.1) = w.2 := fun w hw =>
    hspells ⟨i, s.pageBase p + w.1, w.2⟩
      (mem_overPages.mpr ⟨i, s, hs, p, hp, List.mem_map.mpr ⟨w, hw, rfl⟩⟩)
  have hchain : P.chain i p = ((pageWords (s.pageAt p)).map Prod.fst).map (s.pageBase p + ·) := by
    rw [map_fst_pageWords, List.map_map, chain, hs, Option.elim_some]
    rfl
  have hentries : chainFixups im i (P.chain i p) = pageEntries i s p := by
    rw [chainFixups, hchain, List.map_map, List.map_map, pageEntries]
    refine List.map_congr_left fun w hw => ?_
    simp only [Function.comp_apply, hbase w hw]
  rw [pageFixups, hentries, hstart]
  cases hpage : s.pageAt p with
  | nil =>
    rw [if_neg (by decide), pageEntries, hpage]
    rfl
  | cons x page => exact if_pos (hasChain_encodePageStart (hpage ▸ hlinked))

variable (hat : HasAt f dataoff P.encode) (hfits : P.Fits n)
include hat hfits

theorem chainedStarts_segmentAt {i : ℕ} (hi : i < P.segments.length) :
    match P.segmentAt i with
    | none => chainedStarts f dataoff P.encode.length i = none
    | some s => ∃ seg, chainedStarts f dataoff P.encode.length i = some seg ∧ Describes s seg := by
  have hread := chainedStarts_encode hat hfits hi
  have hget : P.segmentAt i = P.segments[i] := by
    rw [segmentAt, List.getElem?_eq_getElem hi]
    rfl
  rw [hget]
  exact hread

theorem describes_of_walkedStarts {i : ℕ} (hi : i < chainedSegCount f dataoff)
    {seg : ChainedStartsInSegment} (hseg : seg ∈ walkedStarts f dataoff P.encode.length t i) :
    ∃ s, P.segmentAt i = some s ∧ Describes s seg := by
  rw [chainedSegCount_encode hat hfits] at hi
  have hread := chainedStarts_segmentAt hat hfits hi
  have hstarts := (Option.mem_filter_iff.mp hseg).1
  cases hs : P.segmentAt i with
  | none =>
    rw [hs] at hread
    rw [hread] at hstarts
    cases hstarts
  | some s =>
    rw [hs] at hread
    obtain ⟨seg', hseg', hdesc⟩ := hread
    rw [hseg'] at hstarts
    exact ⟨s, rfl, Option.some.inj hstarts ▸ hdesc⟩

theorem payloadFixups_of_spells (hspells : P.Spells im)
    (hmapped : ∀ i s, P.segmentAt i = some s → t.Mapped i) :
    payloadFixups f dataoff P.encode.length t im P.chain = P.fixups := by
  rw [payloadFixups, chainedSegCount_encode hat hfits, fixups, overPages]
  refine List.flatMap_congr fun i hi => ?_
  have hi := List.mem_range.mp hi
  have hread := chainedStarts_segmentAt hat hfits hi
  rw [segmentFixups, walkedStarts, overSegment]
  cases hs : P.segmentAt i with
  | none =>
    rw [hs] at hread
    rw [hread]
    rfl
  | some s =>
    rw [hs] at hread
    obtain ⟨seg, hseg, hdesc⟩ := hread
    have hm := hmapped i s hs
    rw [hseg, Option.filter_some, if_pos (by simp [hm]), Option.elim_some]
    dsimp only
    rw [hdesc.pageCount]
    exact List.flatMap_congr fun p hp =>
      pageFixups_of_spells hfits hspells hs hdesc (List.mem_range.mp hp)

/-- **An image with these entries** and the payload make well-formed chains. -/
theorem wellFormedChains_of_spells (hspells : P.Spells im) :
    WellFormedChains f dataoff P.encode.length t im n P.chain := by
  have hheader := chainedFixupsHeader_encode hat hfits
  obtain ⟨-, -, -, -, hle, hlen⟩ := hfits.bounds
  have hbase : ∀ {s : ChainedSegment} {seg : ChainedStartsInSegment}, Describes s seg →
      ∀ p, seg.pageBase p = s.pageBase p := by
    intro s seg h p
    have hsize : seg.pageSize.toNat = 0x1000 := congrArg BitVec.toNat h.pageSize
    rw [ChainedStartsInSegment.pageBase, h.segmentOffset, hsize, ChainedSegment.pageBase]
  refine ⟨?_, ?_, by rw [hheader], fun i hi seg hseg => ?_, fun i hi seg hseg => ?_,
    fun j hj i hij seg hseg seg' hseg' => ?_⟩
  · rw [chainedFixupsHeaderSize]
    omega
  · rw [hheader]
    dsimp only
    omega
  · obtain ⟨s, -, hdesc⟩ := describes_of_walkedStarts hat hfits hi hseg
    exact hdesc.pageSize
  · obtain ⟨s, hs, hdesc⟩ := describes_of_walkedStarts hat hfits hi hseg
    have hsize : seg.pageSize.toNat = 0x1000 := congrArg BitVec.toNat hdesc.pageSize
    refine ⟨?_, fun p hp hstart => ?_⟩
    · rw [hdesc.segmentOffset, hdesc.pageCount, hsize]
      exact hfits.inImage s (mem_of_segmentAt hs).2.2
    · rw [hdesc.pageCount] at hp
      have hstartEq := hdesc.pageStart p hp
      rw [← ChainedSegment.pageAt_eq hp] at hstartEq
      obtain ⟨hlinked, -⟩ := hfits.page hs p
      have hwords : ∀ w ∈ pageWords (s.pageAt p), word64 im (s.pageBase p + w.1) = w.2 := fun w hw =>
        hspells ⟨i, s.pageBase p + w.1, w.2⟩
          (mem_overPages.mpr ⟨i, s, hs, p, hp, List.mem_map.mpr ⟨w, hw, rfl⟩⟩)
      rw [PageChain, hbase hdesc, hsize, chain, hs, Option.elim_some]
      cases hpage : s.pageAt p with
      | nil =>
        rw [hstartEq, hpage] at hstart
        exact absurd hstart (by decide)
      | cons x page =>
        rw [hpage] at hwords hlinked hstartEq
        have hle := (hlinked.fits x List.mem_cons_self).2
        have hnat : (seg.pageStart p).toNat = x.1 := by
          have hstartNat : (seg.pageStart p).toNat = x.1 % 2 ^ 16 := congrArg BitVec.toNat hstartEq
          rw [hstartNat, Nat.mod_eq_of_lt (by omega)]
        rw [hnat]
        exact chain_pageWords hlinked hwords
  · obtain ⟨s, hs, hdesc⟩ := describes_of_walkedStarts hat hfits (hij.trans hj) hseg
    obtain ⟨s', hs', hdesc'⟩ := describes_of_walkedStarts hat hfits hj hseg'
    rw [hbase hdesc, hbase hdesc', hbase hdesc, hbase hdesc', hdesc.pageCount, hdesc'.pageCount]
    exact hfits.apart hs hs' hij

end Spells

/-! ## Linking -/

/-- The entries written into a memory whose image is at `B`. -/
def link (P : ChainedPayload) (m : Mem 64) (B : Addr) : Mem 64 :=
  applyWrites 8 m (P.fixups.map fun e => (B + BitVec.ofNat 64 e.offset, e.raw.toNat))

theorem Fits.bounds_of_mem_pageEntries (h : P.Fits n) {i p : ℕ} {s : ChainedSegment}
    (hs : P.segmentAt i = some s) {e : Fixup} (he : e ∈ pageEntries i s p) :
    s.pageBase p ≤ e.offset ∧ e.offset + 8 ≤ s.pageBase (p + 1) := by
  obtain ⟨w, hw, rfl⟩ := List.mem_map.mp he
  have hmem : w.1 ∈ (pageWords (s.pageAt p)).map Prod.fst := List.mem_map_of_mem hw
  rw [map_fst_pageWords] at hmem
  obtain ⟨x, hx, hxw⟩ := List.mem_map.mp hmem
  have hle := ((h.page hs p).1.fits x hx).2
  simp only [ChainedSegment.pageBase] at *
  omega

theorem pairwise_pageWords {page : List (ℕ × Pointer)} (h : LinkedPage page) :
    (pageWords page).Pairwise fun w w' => w.1 + 8 ≤ w'.1 := by
  have htrans : Trans (fun a b : ℕ => a + 8 ≤ b) (fun a b => a + 8 ≤ b) (fun a b => a + 8 ≤ b) :=
    ⟨fun h h' => by omega⟩
  have hchain : (page.map Prod.fst).IsChain fun a b => a + 8 ≤ b :=
    List.isChain_map Prod.fst |>.mpr (h.linked.imp fun _ _ h => h.1)
  rw [← map_fst_pageWords] at hchain
  exact List.pairwise_map.mp hchain.pairwise

theorem pageBase_mono (s : ChainedSegment) {p q : ℕ} (h : p ≤ q) : s.pageBase p ≤ s.pageBase q :=
  Nat.add_le_add_left (Nat.mul_le_mul_right _ h) _

theorem Fits.bounds_of_mem_overSegment (h : P.Fits n) {i : ℕ} {e : Fixup}
    (he : e ∈ P.overSegment pageEntries i) :
    ∃ s, P.segmentAt i = some s ∧ s.pageBase 0 ≤ e.offset ∧
      e.offset + 8 ≤ s.pageBase s.pages.length ∧ s.pageBase s.pages.length ≤ n := by
  rw [overSegment] at he
  cases hs : P.segmentAt i with
  | none => simp [hs] at he
  | some s =>
    rw [hs, Option.elim_some] at he
    obtain ⟨p, hp, he⟩ := List.mem_flatMap.mp he
    obtain ⟨hlo, hhi⟩ := h.bounds_of_mem_pageEntries hs he
    have hp : p + 1 ≤ s.pages.length := List.mem_range.mp hp
    exact ⟨s, rfl, (pageBase_mono s (Nat.zero_le p)).trans hlo, hhi.trans (pageBase_mono s hp),
      h.inImage s (mem_of_segmentAt hs).2.2⟩

theorem Fits.pairwise_overSegment (h : P.Fits n) (hn : n ≤ 2 ^ 64) (i : ℕ) :
    (P.overSegment pageEntries i).Pairwise Fixup.Apart := by
  have hroom : ∀ e ∈ P.overSegment pageEntries i, e.offset + 8 ≤ 2 ^ 64 := fun e he => by
    obtain ⟨s, -, -, hle, hin⟩ := h.bounds_of_mem_overSegment he
    omega
  have horder : (P.overSegment pageEntries i).Pairwise fun e e' => e.offset + 8 ≤ e'.offset := by
    rw [overSegment]
    cases hs : P.segmentAt i with
    | none => exact .nil
    | some s =>
      refine List.pairwise_flatMap.mpr ⟨fun p _ => ?_, ?_⟩
      · refine List.pairwise_map.mpr ((pairwise_pageWords (h.page hs p).1).imp ?_)
        intro w w' hww
        dsimp only
        omega
      · refine List.pairwise_lt_range.imp fun {p q} hpq e he e' he' => ?_
        have hb := h.bounds_of_mem_pageEntries hs he
        have hb' := h.bounds_of_mem_pageEntries hs he'
        have hle := pageBase_mono s (show p + 1 ≤ q from hpq)
        omega
  exact horder.imp_of_mem fun he he' hle => ⟨hroom _ he, hroom _ he', .inl hle⟩

theorem Fits.pairwise_fixups (h : P.Fits n) (hn : n ≤ 2 ^ 64) :
    P.fixups.Pairwise Fixup.Apart ∧ ∀ e ∈ P.fixups, e.offset + 8 ≤ n := by
  constructor
  · refine List.pairwise_flatMap.mpr ⟨fun i _ => h.pairwise_overSegment hn i, ?_⟩
    refine List.pairwise_lt_range.imp fun {i j} hij e he e' he' => ?_
    obtain ⟨s, hs, hb⟩ := h.bounds_of_mem_overSegment he
    obtain ⟨s', hs', hb'⟩ := h.bounds_of_mem_overSegment he'
    have hd := h.apart hs hs' hij
    exact ⟨by omega, by omega, by omega⟩
  · intro e he
    obtain ⟨i, -, he⟩ := List.mem_flatMap.mp he
    obtain ⟨s, -, -, hle, hin⟩ := h.bounds_of_mem_overSegment he
    exact hle.trans hin

/-- **After linking** the entries are in the image. -/
theorem spells_link (h : P.Fits n) (hn : n ≤ 2 ^ 64) (m : Mem 64) (B : Addr) :
    P.Spells (view (P.link m B) B) := by
  intro e he
  have hap := (h.pairwise_fixups hn).1
  have hplace : ∀ e' ∈ P.fixups, e' ≠ e → SlotsApart 8 (B + BitVec.ofNat 64 e'.offset)
      (B + BitVec.ofNat 64 e.offset) := fun e' he' hne => (hap.forall he' he hne).slotsApart B
  have hlast := lastWrite_of_mem (List.mem_map_of_mem (f := fun e : Fixup =>
    (B + BitVec.ofNat 64 e.offset, e.raw.toNat)) he)
    (List.pairwise_map.mpr (hap.imp fun h => (h.slotsApart B).ne (by norm_num)))
  rw [← load64_eq_word64, load64, link, loadLE_applyWrites (by norm_num)]
  · rw [hlast, Option.elim_some]
    exact ofNat_toNat_mod e.raw
  · intro w hw
    obtain ⟨e', he', rfl⟩ := List.mem_map.mp hw
    by_cases hne : e' = e
    · exact .inl (by rw [hne])
    · exact .inr (hplace e' he' hne)

/-! ## Pointers and their entries -/

/-- An entry of a pointer of the payload. -/
structure EntryOf (P : ChainedPayload) (x : ℕ × Pointer) (e : Fixup) : Prop where
  offset : e.offset = x.1
  fits : x.2.Fits
  refers : P.Refers x.2
  raw : ∃ next < 2 ^ 12, e.raw = x.2.encode next

theorem forall₂_pageEntries (h : P.Fits n) {i : ℕ} {s : ChainedSegment}
    (hs : P.segmentAt i = some s) (p : ℕ) :
    List.Forall₂ P.EntryOf ((s.pageAt p).map fun x => (s.pageBase p + x.1, x.2))
      (pageEntries i s p) := by
  obtain ⟨hlinked, hrefers⟩ := h.page hs p
  rw [pageEntries, List.forall₂_map_left_iff, List.forall₂_map_right_iff]
  have hall : ∀ x ∈ s.pageAt p, x.2.Fits ∧ P.Refers x.2 := fun x hx =>
    ⟨(hlinked.fits x hx).1, hrefers x hx⟩
  refine ((List.forall₂_and_left ..).mpr ⟨hall, forall₂_pageWords hlinked⟩).imp ?_
  rintro x w ⟨⟨hfits, hrefers⟩, next, hnext, rfl⟩
  exact ⟨rfl, hfits, hrefers, next, hnext, rfl⟩

theorem forall₂_fixups (h : P.Fits n) : List.Forall₂ P.EntryOf P.pointers P.fixups := by
  rw [pointers, fixups, overPages, overPages]
  refine forall₂_flatMap fun i _ => ?_
  rw [overSegment, overSegment]
  cases hs : P.segmentAt i with
  | none => exact .nil
  | some s => exact forall₂_flatMap fun p _ => forall₂_pageEntries h hs p

theorem map_fixups (h : P.Fits n) {α : Type} {g : Fixup → α} {g' : ℕ × Pointer → α}
    (hg : ∀ x e, P.EntryOf x e → g e = g' x) : P.fixups.map g = P.pointers.map g' := by
  refine Eq.symm (List.forall₂_eq_eq_eq ▸ ?_ : P.pointers.map g' = P.fixups.map g)
  rw [List.forall₂_map_left_iff, List.forall₂_map_right_iff]
  exact (forall₂_fixups h).imp fun x e hxe => (hg x e hxe).symm

theorem countP_fixups (h : P.Fits n) {p : Fixup → Bool} {q : ℕ × Pointer → Bool}
    (hpq : ∀ x e, P.EntryOf x e → p e = q x) : P.fixups.countP p = P.pointers.countP q := by
  have hmap := congrArg (List.countP id) (map_fixups h hpq)
  rwa [List.countP_map, List.countP_map, Function.id_comp, Function.id_comp] at hmap

theorem exists_entryOf (h : P.Fits n) {x : ℕ × Pointer} (hx : x ∈ P.pointers) :
    ∃ e ∈ P.fixups, P.EntryOf x e := by
  obtain ⟨i, hi, rfl⟩ := List.getElem_of_mem hx
  have hlen := (forall₂_fixups h).length_eq
  exact ⟨P.fixups[i], List.getElem_mem _, (forall₂_fixups h).get hi (hlen ▸ hi)⟩

theorem exists_pointer (h : P.Fits n) {e : Fixup} (he : e ∈ P.fixups) :
    ∃ x ∈ P.pointers, P.EntryOf x e := by
  obtain ⟨i, hi, rfl⟩ := List.getElem_of_mem he
  have hlen := (forall₂_fixups h).length_eq
  exact ⟨P.pointers[i], List.getElem_mem _, (forall₂_fixups h).get (hlen ▸ hi) hi⟩

end ChainedPayload

/-! ## Loading what was linked -/

/-- A pointer to an import. -/
def Pointer.isBind : Pointer → Bool
  | .rebase _ => false
  | .bind _ _ => true

/-- What a pointer stands for in an image at `img`; `none` for an import without an address. -/
def Pointer.value (E : Env) (imports : List CString) (img : Addr) : Pointer → Option Addr
  | .rebase target => some (img + BitVec.ofNat 64 target)
  | .bind ordinal addend =>
    if E.resolve (imports.getD ordinal []) = 0#64 then none
    else some (E.resolve (imports.getD ordinal []) + addend.signExtend 64)

namespace ChainedPayload

variable {P : ChainedPayload} {n : ℕ} {f : File} {dataoff : ℕ} (E : Env)

section Entries

variable {x : ℕ × Pointer} {e : Fixup} (he : P.EntryOf x e)
include he

theorem EntryOf.isBind : chained64IsBind e.raw = x.2.isBind := by
  obtain ⟨o, ptr⟩ := x
  obtain ⟨-, hfits, -, next, hnext, hraw⟩ := he
  rw [hraw]
  cases ptr with
  | rebase target => exact chained64IsBind_encode_rebase hnext hfits
  | bind ordinal addend => exact chained64IsBind_encode_bind hnext addend hfits

theorem EntryOf.fixupValue (hat : HasAt f dataoff P.encode) (hfits : P.Fits n) (img : Addr) :
    fixupValue E f dataoff (chainedFixupsHeader f dataoff) img e.raw =
      x.2.value E P.imports img := by
  have hbind := he.isBind
  obtain ⟨o, ptr⟩ := x
  obtain ⟨-, hptr, hrefers, next, hnext, hraw⟩ := he
  rw [fixupValue_eq, hbind]
  cases ptr with
  | rebase target =>
    rw [hraw, chained64RebaseTarget_encode hnext hptr]
    exact if_neg Bool.false_ne_true
  | bind ordinal addend =>
    have hordinal : ordinal < P.imports.length := hrefers
    have hget : P.imports.getD ordinal [] = P.imports[ordinal] := by
      simp [List.getElem?_eq_getElem hordinal]
    rw [hraw, importAddress_encode hat hfits E addend hnext hordinal hptr,
      chained64BindAddend_encode hnext addend hptr, Pointer.value, hget]
    exact if_pos rfl

theorem EntryOf.isUnresolved (hat : HasAt f dataoff P.encode) (hfits : P.Fits n) (img : Addr) :
    isUnresolved E f dataoff (chainedFixupsHeader f dataoff) img e.raw =
      (x.2.value E P.imports img).isNone := by
  rw [Maloader.isUnresolved, he.isBind, he.fixupValue E hat hfits]
  cases x.2 <;> rfl

end Entries

/-- **Linking and then loading**: after the walk over an image that the pointers of a payload were
linked into, every pointer's slot holds what the pointer stands for, a pointer to an import without an
address excepted, whose slot is left as linked. No other byte is touched by either, the pointers are
visited one by one in order, and each is counted by its kind. -/
theorem dumpChainedFixups_link (c : MachContext) (h : P.Fits n) (hn : n ≤ 2 ^ 64)
    (hat : HasAt f dataoff P.encode)
    (hmapped : ∀ i s, P.segmentAt i = some s → c.segments.Mapped i) :
    let linked := { c with mem := P.link c.mem c.imgAddr }
    let c' := dumpChainedFixups E f linked dataoff P.encode.length
    let place (o : ℕ) := c.imgAddr + BitVec.ofNat 64 o
    let value (x : ℕ × Pointer) := x.2.value E P.imports c.imgAddr
    (∀ x ∈ P.pointers, load64 c'.mem (place x.1) =
      (value x).getD (load64 linked.mem (place x.1))) ∧
    (∀ a, (∀ x ∈ P.pointers, ¬ InRange (place x.1) 8 a) → c'.mem a = c.mem a) ∧
    (visits c'.trace).map (fun v => v.2.1) =
      (visits c.trace).map (fun v => v.2.1) ++ P.pointers.map (fun x => place x.1) ∧
    c'.chainedRebaseCount = BitVec.ofNat 32 (P.pointers.countP fun x => !x.2.isBind) ∧
    c'.chainedBindCount = BitVec.ofNat 32 (P.pointers.countP fun x => x.2.isBind) ∧
    c'.chainedUnresolvedBindCount = c.chainedUnresolvedBindCount +
      BitVec.ofNat 32 (P.pointers.countP fun x => (value x).isNone) := by
  intro linked c' place value
  have hspells : P.Spells (view linked.mem linked.imgAddr) := spells_link h hn c.mem c.imgAddr
  have hchains := wellFormedChains_of_spells (t := c.segments) hat h hspells
  have hes := payloadFixups_of_spells hat h hspells hmapped
  have hap := (h.pairwise_fixups hn).1
  let start := { linked with chainedRebaseCount := 0#32, chainedBindCount := 0#32 }
  have hc' : c' = P.fixups.foldl (fixupStep E f dataoff (chainedFixupsHeader f dataoff)) start :=
    hes ▸ dumpChainedFixups_eq E linked hchains hn
  refine ⟨fun x hx => ?_, fun a ha => ?_, ?_, ?_⟩
  · obtain ⟨e, he, hxe⟩ := exists_entryOf h hx
    have hraw := hspells e he
    have hvalue : value x = _ := (hxe.fixupValue E hat h c.imgAddr).symm
    rw [load64_eq_word64, load64_eq_word64, ← hxe.offset, hraw, hc', hvalue]
    exact word64_foldl_fixupStep E hap he start hraw
  · have hslots : ∀ e ∈ P.fixups, ¬ InRange (place e.offset) 8 a := fun e he => by
      obtain ⟨x, hx, hxe⟩ := exists_pointer h he
      rw [hxe.offset]
      exact ha x hx
    rw [hc']
    refine (mem_foldl_fixupStep E start hslots).trans (applyWrites_of_not_inRange c.mem fun w hw => ?_)
    obtain ⟨e, he, rfl⟩ := List.mem_map.mp hw
    exact hslots e he
  · rw [hc', visits_foldl_fixupStep, List.map_append, List.map_map]
    congr 1
    exact map_fixups h fun x e hxe => congrArg place hxe.offset
  · have hbinds := countP_fixups h fun x e hxe => hxe.isBind
    have hrebases := countP_fixups h fun x e hxe => congrArg (!·) hxe.isBind
    have hunresolved := countP_fixups h fun x e hxe => hxe.isUnresolved E hat h c.imgAddr
    rw [hc', foldl_fixupStep]
    dsimp only
    rw [BitVec.zero_add, BitVec.zero_add, hbinds, hrebases, hunresolved]
    exact ⟨rfl, rfl, rfl⟩

end ChainedPayload

/-- A page with a rebase to `0x40` and behind it a pointer five bytes past `sin`. -/
def sinPayload : ChainedPayload where
  imports := [lit "_sin"]
  segments := [some ⟨0, [[(0, .rebase 0x40), (8, .bind 0 5#8)]]⟩]

theorem sinPayload_fits : sinPayload.Fits 0x1000 := by
  have hseg : ∀ s, some s ∈ sinPayload.segments →
      s = ⟨0, [[(0, .rebase 0x40), (8, .bind 0 5#8)]]⟩ := fun s hs =>
    Option.some.inj (List.mem_singleton.mp hs)
  refine ⟨by decide, by decide, by decide, fun s hs => ?_, fun s hs => ?_, fun s hs => ?_,
    List.pairwise_singleton _ _⟩ <;> rw [hseg s hs] <;> decide

/-- The host with `sin` at `3`. -/
def sinEnv : Env := { Env.plain with resolve := fun name => if name = lit "_sin" then 3#64 else 0#64 }

/-- `sin` is at `3`, the image at `0x5000`. -/
theorem dumpChainedFixups_link_sinPayload :
    ∃ c', dumpChainedFixups sinEnv sinPayload.encode { onePageContext with
        mem := sinPayload.link onePageContext.mem onePageContext.imgAddr } 0 sinPayload.encode.length = c' ∧
      load64 c'.mem 0x5000#64 = 0x5040#64 ∧ load64 c'.mem 0x5008#64 = 8#64 ∧
        c'.chainedBindCount = 1#32 := by
  have hmapped : ∀ i s, sinPayload.segmentAt i = some s → onePageContext.segments.Mapped i := by
    intro i s hs
    obtain rfl : i = 0 := Nat.lt_one_iff.mp (ChainedPayload.mem_of_segmentAt hs).1
    decide
  obtain ⟨hslots, -, -, -, hbinds, -⟩ := ChainedPayload.dumpChainedFixups_link sinEnv onePageContext
    sinPayload_fits (by norm_num) (hasAt_self _) hmapped
  have hplaces : onePageContext.imgAddr + BitVec.ofNat 64 0 = 0x5000#64 ∧
      onePageContext.imgAddr + BitVec.ofNat 64 8 = 0x5008#64 := by decide
  have hvalues : Pointer.value sinEnv sinPayload.imports onePageContext.imgAddr (.rebase 0x40) =
        some 0x5040#64 ∧
      Pointer.value sinEnv sinPayload.imports onePageContext.imgAddr (.bind 0 5#8) = some 8#64 := by
    decide
  have hfirst := hslots (0, .rebase 0x40) (by decide)
  have hsecond := hslots (8, .bind 0 5#8) (by decide)
  dsimp only at hfirst hsecond
  rw [hvalues.1, Option.getD_some, hplaces.1] at hfirst
  rw [hvalues.2, Option.getD_some, hplaces.2] at hsecond
  exact ⟨_, rfl, hfirst, hsecond, hbinds⟩

end Maloader
