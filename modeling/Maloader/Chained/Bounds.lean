import Maloader.Chained.Relate

/-!
# Entries and the bounds of their segment

The walk does not ask whether an entry lies in the segment whose chain it is on. If every chain
begins in its segment and no link leads out of it, every entry does.

* `SegmentInfo.Holds`, `SegmentInfo.HasRoom`, **`holds_add_iff`**: a place inside a segment, and the
  offsets of such places.
* `StartsHaveRoom`, `ChainLinksHaveRoom`, `LinksHaveRoom`: where chains begin and links lead, told of
  the context the walk comes to a chain in.
* `chainedChain_held`: a chain; **`dumpChainedFixups_held`**: a payload.
* `dumpChainedFixups_stores`: every store is made at an entry.
-/

namespace Maloader

open ByteLib

/-! ## Places in a segment -/

/-- The eight bytes at `loc` are in the segment: between `mapped_addr` and `mapped_addr + vmsize`. -/
def SegmentInfo.Holds (info : SegmentInfo) (loc : Addr) : Prop :=
  info.mappedAddr.toNat ≤ loc.toNat ∧ loc.toNat + 8 ≤ info.mappedAddr.toNat + info.vmsize.toNat

instance (info : SegmentInfo) (loc : Addr) : Decidable (info.Holds loc) := by
  unfold SegmentInfo.Holds; infer_instance

/-- The segment has room for eight bytes at `offset`, and the address does not wrap. -/
def SegmentInfo.HasRoom (info : SegmentInfo) (offset : BitVec 64) : Prop :=
  info.mappedAddr.toNat + offset.toNat < 2 ^ 64 ∧ offset.toNat + 8 ≤ info.vmsize.toNat

instance (info : SegmentInfo) (offset : BitVec 64) : Decidable (info.HasRoom offset) := by
  unfold SegmentInfo.HasRoom; infer_instance

/-- **An offset leads into the segment** exactly if the segment has room there. -/
theorem holds_add_iff (info : SegmentInfo) (offset : BitVec 64) :
    info.Holds (info.mappedAddr + offset) ↔ info.HasRoom offset := by
  have hm := info.mappedAddr.isLt
  have ho := offset.isLt
  rw [SegmentInfo.Holds, SegmentInfo.HasRoom, BitVec.toNat_add]
  by_cases h : info.mappedAddr.toNat + offset.toNat < 2 ^ 64
  · rw [Nat.mod_eq_of_lt h]
    omega
  · omega

theorem holds_iff (info : SegmentInfo) (loc : Addr) :
    info.Holds loc ↔ info.HasRoom (loc - info.mappedAddr) := by
  rw [← holds_add_iff, add_sub_cancel]

/-- Segment `i`, if it is recorded and mapped, has room at its offset. -/
def SegmentTable.RoomAt (t : SegmentTable) (i : ℕ) (offset : SegmentInfo → BitVec 64) : Prop :=
  ∀ info ∈ t.recs[i]?, info.mappedAddr ≠ 0#64 → info.HasRoom (offset info)

instance (t : SegmentTable) (i : ℕ) (offset : SegmentInfo → BitVec 64) :
    Decidable (t.RoomAt i offset) := by
  unfold SegmentTable.RoomAt; infer_instance

/-- Segment `i` is recorded and holds `loc`. -/
def SegmentTable.Holds (t : SegmentTable) (i : ℕ) (loc : Addr) : Prop :=
  ∃ info ∈ t.recs[i]?, info.Holds loc

instance (t : SegmentTable) (i : ℕ) (loc : Addr) : Decidable (t.Holds i loc) := by
  unfold SegmentTable.Holds; infer_instance

theorem SegmentTable.holds_of_roomAt {t : SegmentTable} {i : ℕ} (hm : t.Mapped i) {loc : Addr}
    (h : t.RoomAt i fun info => loc - info.mappedAddr) : t.Holds i loc := by
  obtain ⟨info, hinfo, hne⟩ := hm
  exact ⟨info, hinfo, (holds_iff info loc).mpr (h info hinfo hne)⟩

theorem SegmentTable.Holds.mono {t t' : SegmentTable} (ht : t.recs <+: t'.recs) {i : ℕ} {loc : Addr}
    (h : t.Holds i loc) : t'.Holds i loc := by
  obtain ⟨info, hinfo, hloc⟩ := h
  obtain ⟨l, hl⟩ := ht
  refine ⟨info, ?_, hloc⟩
  rw [← hl, Option.mem_def, List.getElem?_append_left]
  · exact hinfo
  · exact (List.getElem?_eq_some_iff.mp hinfo).1

/-! ## Chains -/

/-- Every entry in the log lies in the segment whose chain it is on. -/
def FixupsHeld (t : SegmentTable) (trace : List Event) : Prop :=
  ∀ i loc raw, Event.fixup i loc raw ∈ trace → t.Holds i loc

/-- Every chain of the payload that is walked begins in its segment. -/
def StartsHaveRoom (f : File) (t : SegmentTable) (img : Addr) (dataoff datasize : ℕ) : Prop :=
  ∀ i < chainedSegCount f dataoff, ∀ seg ∈ chainedStarts f dataoff datasize i,
    ∀ page < seg.pageCount.toNat, HasChain (seg.pageStart page) →
      t.RoomAt i fun info => img + seg.chainStart page - info.mappedAddr

instance (f : File) (t : SegmentTable) (img : Addr) (dataoff datasize : ℕ) :
    Decidable (StartsHaveRoom f t img dataoff datasize) := by
  unfold StartsHaveRoom; infer_instance

/-- No link that the chain loop follows leads out of the segment. With one turn left there is a link and
no turn that follows it. -/
def ChainLinksHaveRoom (E : Env) (f : File) (fixupsBase : ℕ) (hdr : ChainedFixupsHeader)
    (t : SegmentTable) (segment : ℕ) : ℕ → MachContext → Addr → Prop
  | 0, _, _ => True
  | 1, _, _ => True
  | n + 2, c, loc =>
    let raw := load64 c.mem loc
    let loc' := loc + BitVec.ofNat 64 ((chained64Next raw).toNat * 4)
    chained64Next raw ≠ 0#16 → (t.RoomAt segment fun info => loc' - info.mappedAddr) ∧
      ChainLinksHaveRoom E f fixupsBase hdr t segment (n + 1)
        (chainedEntry E f fixupsBase hdr segment c loc raw) loc'

instance instDecidableChainLinksHaveRoom (E : Env) (f : File) (fixupsBase : ℕ)
    (hdr : ChainedFixupsHeader) (t : SegmentTable) (segment : ℕ) : (n : ℕ) → (c : MachContext) →
      (loc : Addr) → Decidable (ChainLinksHaveRoom E f fixupsBase hdr t segment n c loc)
  | 0, _, _ => inferInstanceAs (Decidable True)
  | 1, _, _ => inferInstanceAs (Decidable True)
  | n + 2, c, loc =>
    have := instDecidableChainLinksHaveRoom E f fixupsBase hdr t segment (n + 1)
      (chainedEntry E f fixupsBase hdr segment c loc (load64 c.mem loc))
      (loc + BitVec.ofNat 64 ((chained64Next (load64 c.mem loc)).toNat * 4))
    inferInstanceAs (Decidable (chained64Next (load64 c.mem loc) ≠ 0#16 →
      (t.RoomAt segment fun info =>
        loc + BitVec.ofNat 64 ((chained64Next (load64 c.mem loc)).toNat * 4) - info.mappedAddr) ∧
      ChainLinksHaveRoom E f fixupsBase hdr t segment (n + 1)
        (chainedEntry E f fixupsBase hdr segment c loc (load64 c.mem loc))
        (loc + BitVec.ofNat 64 ((chained64Next (load64 c.mem loc)).toNat * 4))))

/-- No link that the walk from `c` follows leads out of its segment. -/
def LinksHaveRoom (E : Env) (f : File) (c : MachContext) (dataoff datasize : ℕ) : Prop :=
  ∀ i < chainedSegCount f dataoff, ∀ seg ∈ chainedStarts f dataoff datasize i,
    ∀ page < seg.pageCount.toNat, HasChain (seg.pageStart page) →
      ChainLinksHaveRoom E f dataoff (chainedFixupsHeader f dataoff) c.segments i chainLimit
        (contextAtPage E f c dataoff datasize i seg page) (c.imgAddr + seg.chainStart page)

instance instDecidableLinksHaveRoom (E : Env) (f : File) (c : MachContext) (dataoff datasize : ℕ) :
    Decidable (LinksHaveRoom E f c dataoff datasize) :=
  inferInstanceAs (Decidable (∀ i < chainedSegCount f dataoff, ∀ seg ∈ chainedStarts f dataoff datasize i,
    ∀ page < seg.pageCount.toNat, HasChain (seg.pageStart page) →
      ChainLinksHaveRoom E f dataoff (chainedFixupsHeader f dataoff) c.segments i chainLimit
        (contextAtPage E f c dataoff datasize i seg page) (c.imgAddr + seg.chainStart page)))

variable {E : Env} {f : File} {fixupsBase : ℕ} {hdr : ChainedFixupsHeader} {t : SegmentTable}

variable (E f fixupsBase hdr) in
theorem trace_chainedEntry (segment : ℕ) (c : MachContext) (loc : Addr) (raw : BitVec 64) :
    ∃ values : List (BitVec 64), (chainedEntry E f fixupsBase hdr segment c loc raw).trace =
      c.trace ++ .fixup segment loc raw :: values.map (.store loc) := by
  rw [chainedEntry_eq]
  exact ⟨_, rfl⟩

theorem FixupsHeld.chainedEntry {segment : ℕ} {c : MachContext} {loc : Addr} (hc : FixupsHeld t c.trace)
    (hloc : t.Holds segment loc) (raw : BitVec 64) :
    FixupsHeld t (chainedEntry E f fixupsBase hdr segment c loc raw).trace := by
  obtain ⟨values, htrace⟩ := trace_chainedEntry E f fixupsBase hdr segment c loc raw
  intro i loc' raw' hev
  rw [htrace, List.mem_append, List.mem_cons] at hev
  rcases hev with hev | hev | hev
  · exact hc i loc' raw' hev
  · obtain ⟨rfl, rfl, -⟩ := Event.fixup.inj hev
    exact hloc
  · obtain ⟨v, -, hv⟩ := List.mem_map.mp hev
    exact Event.noConfusion hv

/-- **A chain** that begins in its segment stays there if its links do. -/
theorem chainedChain_held {segment : ℕ} (hm : t.Mapped segment) (n : ℕ) {c : MachContext} {loc : Addr}
    (hlinks : ChainLinksHaveRoom E f fixupsBase hdr t segment n c loc) (hloc : t.Holds segment loc)
    (hc : FixupsHeld t c.trace) :
    FixupsHeld t (chainedChain E f fixupsBase hdr segment n c loc).trace := by
  induction n generalizing c loc with
  | zero => exact hc
  | succ n ih =>
    have hentry : FixupsHeld t
        (chainedEntry E f fixupsBase hdr segment c loc (load64 c.mem loc)).trace :=
      hc.chainedEntry hloc _
    rw [chainedChain]
    split_ifs with hnext
    · exact hentry
    · cases n with
      | zero => exact hentry
      | succ n =>
        obtain ⟨hroom, hrest⟩ := hlinks hnext
        exact ih hrest (SegmentTable.holds_of_roomAt hm hroom) hentry

/-- **A payload**: where all chains begin in their segments and no link that is followed leads out, every
entry the walk comes to lies in its segment. -/
theorem dumpChainedFixups_held {dataoff datasize : ℕ} {c : MachContext}
    (hroom : chainedFixupsHeaderSize ≤ datasize →
      StartsHaveRoom f c.segments c.imgAddr dataoff datasize ∧ LinksHaveRoom E f c dataoff datasize)
    (hc : FixupsHeld c.segments c.trace) :
    FixupsHeld c.segments (dumpChainedFixups E f c dataoff datasize).trace := by
  let P (c' : MachContext) : Prop := AtImage c.imgAddr c.segments c' ∧ FixupsHeld c.segments c'.trace
  have hstart : P c.resetCounts := ⟨⟨rfl, rfl⟩, hc⟩
  refine (dumpChainedFixups_pages (P := P) hstart ?_).2
  intro i hi seg hseg page hp hs hsize d hm ⟨⟨himg, htable⟩, hheld⟩
  obtain ⟨hstarts, hlinks⟩ := hroom hsize
  obtain ⟨himg', htable'⟩ := atImage_chainedChain E f dataoff (chainedFixupsHeader f dataoff) i chainLimit
    d (d.imgAddr + seg.chainStart page)
  rw [htable] at hm
  refine ⟨⟨himg'.trans himg, htable'.trans htable⟩, ?_⟩
  rw [himg]
  exact chainedChain_held hm _ (hlinks i hi seg hseg page hp hs)
    (SegmentTable.holds_of_roomAt hm (hstarts i hi seg hseg page hp hs)) hheld

/-- Every store in the log is made at an entry in it. -/
def StoresAtFixups (trace : List Event) : Prop :=
  ∀ loc v, Event.store loc v ∈ trace → ∃ i raw, Event.fixup i loc raw ∈ trace

theorem dumpChainedFixups_stores {dataoff datasize : ℕ} {c : MachContext} (hc : StoresAtFixups c.trace) :
    StoresAtFixups (dumpChainedFixups E f c dataoff datasize).trace := by
  have hstart : StoresAtFixups c.resetCounts.trace := hc
  refine dumpChainedFixups_inv (P := fun c' => StoresAtFixups c'.trace) hstart ?_
  intro c' segment loc raw h
  obtain ⟨values, htrace⟩ := trace_chainedEntry E f dataoff (chainedFixupsHeader f dataoff) segment c'
    loc raw
  rw [htrace]
  intro loc' v hev
  rw [List.mem_append, List.mem_cons] at hev
  rcases hev with hev | hev | hev
  · obtain ⟨i, raw', hfixup⟩ := h loc' v hev
    exact ⟨i, raw', List.mem_append_left _ hfixup⟩
  · exact Event.noConfusion hev
  · obtain ⟨v', -, hv⟩ := List.mem_map.mp hev
    obtain ⟨rfl, -⟩ := Event.store.inj hv
    exact ⟨segment, raw, List.mem_append_right _ List.mem_cons_self⟩

end Maloader
