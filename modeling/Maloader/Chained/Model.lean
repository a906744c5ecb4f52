import Maloader.Context

/-!
# Chained fixups

The payload of `LC_DYLD_CHAINED_FIXUPS` and the walk that rebases and binds the chain entries in
place, each link read out of the word that is then overwritten.

* `chained64BindOrdinal` … `chained64IsBind`: the fields of an entry;
* `chainedImportName`, `applyChainedBind`, `applyChained64OffsetRebase`, `chainedEntry`: one entry;
* `chainedChain`, `chainedPage`, `dumpChained64OffsetEntries`: a chain, a page, a segment;
* `dumpChainedFixups`: the payload.
-/

namespace Maloader

open ByteLib

/-! ## The fields of an entry -/

/-- `raw & 0xFFFFFF`. -/
def chained64BindOrdinal (raw : BitVec 64) : BitVec 32 := (raw &&& 0xFFFFFF#64).setWidth 32

/-- `(int8_t)((raw >> 24) & 0xFF)`, as the byte it is. -/
def chained64BindAddend (raw : BitVec 64) : BitVec 8 := ((raw >>> 24) &&& 0xFF#64).setWidth 8

/-- The low 36 bits. -/
def chained64RebaseTarget (raw : BitVec 64) : BitVec 64 := raw &&& 0xFFFFFFFFF#64

/-- The distance to the next entry, in words of four bytes. -/
def chained64Next (raw : BitVec 64) : BitVec 16 := ((raw >>> 51) &&& 0xFFF#64).setWidth 16

/-- The highest bit. -/
def chained64IsBind (raw : BitVec 64) : Bool := (raw >>> 63) &&& 1#64 ≠ 0#64

/-! ## One entry -/

/-- The import's name; `none` for an ordinal out of range. -/
def chainedImportName (f : File) (fixupsBase : ℕ) (hdr : ChainedFixupsHeader) (ordinal : BitVec 32) :
    Option CString :=
  if hdr.importsCount ≤ ordinal then none
  else
    let nameOffset := u32 f (fixupsBase + hdr.importsOffset + 4 * ordinal.toNat) >>> 9
    some (cstrAt f (fixupsBase + hdr.symbolsOffset + nameOffset.toNat))

/-- `addend` is the `int64_t` the caller's `int8_t` is widened to. -/
def applyChainedBind (E : Env) (c : MachContext) (loc : Addr) (symbolName : CString)
    (addend : BitVec 64) : ℤ × MachContext :=
  let resolved := E.resolve symbolName
  let c := { c with chainedBindCount := c.chainedBindCount + 1#32 }
  if resolved = 0#64 then
    (-1, { c with chainedUnresolvedBindCount := c.chainedUnresolvedBindCount + 1#32 })
  else
    let final := resolved + addend
    (0, { c with mem := store64 c.mem loc final, trace := c.trace ++ [.store loc final] })

/-- `*(uint64_t*)loc = img_addr + target`. -/
def applyChained64OffsetRebase (c : MachContext) (loc : Addr) (raw : BitVec 64) : MachContext :=
  let final := c.imgAddr + chained64RebaseTarget raw
  { c with mem := store64 c.mem loc final, trace := c.trace ++ [.store loc final] }

/-- The body of the chain loop once `raw` has been read at `loc`. -/
def chainedEntry (E : Env) (f : File) (fixupsBase : ℕ) (hdr : ChainedFixupsHeader)
    (segmentIndex : ℕ) (c : MachContext) (loc : Addr) (raw : BitVec 64) : MachContext :=
  let c := { c with trace := c.trace ++ [.fixup segmentIndex loc raw] }
  if chained64IsBind raw then
    match chainedImportName f fixupsBase hdr (chained64BindOrdinal raw) with
    | some name => (applyChainedBind E c loc name ((chained64BindAddend raw).signExtend 64)).2
    | none =>
      { c with
        chainedBindCount := c.chainedBindCount + 1#32
        chainedUnresolvedBindCount := c.chainedUnresolvedBindCount + 1#32 }
  else
    let c := applyChained64OffsetRebase c loc raw
    { c with chainedRebaseCount := c.chainedRebaseCount + 1#32 }

/-! ## Chains, pages, segments -/

/-- The chain loop with `n` turns left. -/
def chainedChain (E : Env) (f : File) (fixupsBase : ℕ) (hdr : ChainedFixupsHeader)
    (segmentIndex : ℕ) : ℕ → MachContext → Addr → MachContext
  | 0, c, _ => c
  | n + 1, c, loc =>
    let raw := load64 c.mem loc
    let next := chained64Next raw
    let c := chainedEntry E f fixupsBase hdr segmentIndex c loc raw
    if next = 0#16 then c
    else
      chainedChain E f fixupsBase hdr segmentIndex n c (loc + BitVec.ofNat 64 (next.toNat * 4))

/-- The bound of the chain loop. -/
def chainLimit : ℕ := 512

/-- The body of the page loop. -/
def chainedPage (E : Env) (f : File) (fixupsBase : ℕ) (hdr : ChainedFixupsHeader)
    (segmentIndex : ℕ) (seg : ChainedStartsInSegment) (c : MachContext) (page : ℕ) : MachContext :=
  let pageStart := seg.pageStart page
  if pageStart = malDyldChainedPtrStartNone then c
  else if pageStart &&& malDyldChainedPtrStartMulti ≠ 0#16 then c
  else
    let chainOffset := seg.segmentOffset + BitVec.ofNat 64 page * seg.pageSize.zeroExtend 64 +
      pageStart.zeroExtend 64
    chainedChain E f fixupsBase hdr segmentIndex chainLimit c (c.imgAddr + chainOffset)

/-- The pages of one segment, if it is recorded and mapped. -/
def dumpChained64OffsetEntries (E : Env) (f : File) (fixupsBase : ℕ) (hdr : ChainedFixupsHeader)
    (segmentIndex : ℕ) (seg : ChainedStartsInSegment) (c : MachContext) : MachContext :=
  match c.segments.recs[segmentIndex]? with
  | none => c
  | some loadedSeg =>
    if loadedSeg.mappedAddr = 0#64 then c
    else (List.range seg.pageCount.toNat).foldl (chainedPage E f fixupsBase hdr segmentIndex seg) c

/-! ## The payload -/

/-- The body of the loop over `seg_info_offset`. -/
def chainedSegment (E : Env) (f : File) (fixupsBase datasize : ℕ) (hdr : ChainedFixupsHeader)
    (c : MachContext) (i : ℕ) : MachContext :=
  let starts := fixupsBase + hdr.startsOffset
  let segInfoOff := (u32 f (starts + 4 + 4 * i)).toNat
  if segInfoOff = 0 then c
  else if fixupsBase + datasize < starts + segInfoOff + chainedStartsInSegmentSize then c
  else
    let seg := chainedStartsInSegment f (starts + segInfoOff)
    if seg.pointerFormat = malDyldChainedPtr64Offset then
      dumpChained64OffsetEntries E f fixupsBase hdr i seg c
    else c

/-- The payload of `datasize` bytes at `dataoff`; the counters of the walk start from zero. -/
def dumpChainedFixups (E : Env) (f : File) (c : MachContext) (dataoff datasize : ℕ) :
    MachContext :=
  let c := { c with chainedRebaseCount := 0#32, chainedBindCount := 0#32 }
  let hdr := chainedFixupsHeader f dataoff
  if datasize < chainedFixupsHeaderSize then c
  else if datasize ≤ hdr.startsOffset then c
  else if dataoff + datasize < dataoff + hdr.startsOffset + 4 then c
  else
    let segCount := (u32 f (dataoff + hdr.startsOffset)).toNat
    (List.range segCount).foldl (chainedSegment E f dataoff datasize hdr) c

end Maloader
