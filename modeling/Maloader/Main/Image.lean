import Maloader.Host.Load
import Maloader.Loader.Inside
import Maloader.Loader.Slide
import Maloader.Main.Outcome

/-!
# From the file to the call

What a well-formed executable finds in memory when `main` calls it.

* `BindPrograms`, `programsRows`: a bind table and its streams; `fileEntry`: the entry point of an
  image at a given address.
* `WellFormedFile`: segments, chained fixups and bind tables are well formed and lie apart, and what the
  commands point at lies in the file.
* **`loader64_wellFormed`**: loading such a file; `load64_imageFixed`, `view_imageFixed`,
  `mem_imageFixed`: the image before binding.
* `BoundImage`, `boundImage_bound`, **`main_eq_called`**: binding, and the run up to the call.
* **`main_image`**: the image that is called.
-/

namespace Maloader

open ByteLib

/-! ## Files -/

/-- A bind table and the programs its two streams encode. -/
structure BindPrograms where
  info : DyldInfoCommand
  bind : List BindOp
  lazyBind : List BindOp

/-- The rows of one bind table, those of the lazy stream behind the others. -/
def BindPrograms.rows (p : BindPrograms) : List BindRegs := bindRows p.bind p.lazyBind

/-- The rows of all bind tables. -/
def programsRows (tables : List BindPrograms) : List BindRegs := tables.flatMap BindPrograms.rows

/-- The address of the last symbol named `_main` in an image at `B` whose lowest address is `base`. -/
def fileEntry (f : File) (base : ℕ) (B : Addr) : Option Addr :=
  ((symtabsOf (commands f)).flatMap (mainSymbols f)).getLast?.map fun sym =>
    B + (sym.nValue - BitVec.ofNat 64 base)

/-- The place of the payload of chained fixups in the file. -/
def fixupsOff (f : File) : ℕ := (chainedOf (commands f)).head?.elim 0 LinkeditDataCommand.dataoff

/-- An executable whose tables lie in the file, and whose chain entries and bind slots lie in the image,
all of them apart. -/
structure WellFormedFile (f : File) (base top : ℕ) (chain : ℕ → ℕ → List ℕ)
    (tables : List BindPrograms) : Prop where
  image : WellFormedImage f base top
  inside : TablesInside f
  first : SegmentsFirst f
  text : ∀ seg ∈ imageSegments f, seg.isText → seg.vmaddr.toNat = base
  fixups : WellFormedFixups f base (pageUp (top - base)) chain
  infos : infosOf (commands f) = tables.map BindPrograms.info
  streams : ∀ p ∈ tables, BindStreams f p.info p.bind p.lazyBind
  slots : ∀ row ∈ programsRows tables, row.HasSlot f base
  apart : (programsRows tables).Pairwise fun row row' =>
    slotOffset f base row + 8 ≤ slotOffset f base row' ∨
      slotOffset f base row' + 8 ≤ slotOffset f base row
  disjoint : ∀ row ∈ programsRows tables, ∀ e ∈ fileFixups f base chain,
    slotOffset f base row + 8 ≤ e.offset ∨ e.offset + 8 ≤ slotOffset f base row

/-- An entry that binds and finds no address. -/
def Fixup.unresolved (E : Env) (f : File) (dataoff : ℕ) (e : Fixup) : Bool :=
  chained64IsBind e.raw && importAddress E f dataoff e.raw = 0#64

variable {f : File} {base top : ℕ} {B : Addr} {chain : ℕ → ℕ → List ℕ} {tables : List BindPrograms}

/-! ## Loading -/

theorem clearCounts_eq_self {c : MachContext} (hrebase : c.chainedRebaseCount = 0#32)
    (hbind : c.chainedBindCount = 0#32) :
    { c with chainedRebaseCount := 0#32, chainedBindCount := 0#32 } = c := by
  cases c
  cases hrebase
  cases hbind
  rfl

section Loading

variable (E : Env) (m : Mem 64)

/-- The entries of the file acted on in a context with the image loaded. -/
def imageFixed (f : File) (base : ℕ) (chain : ℕ → ℕ → List ℕ) (B : Addr) : MachContext :=
  (fileFixups f base chain).foldl
    (fixupStep E f (fixupsOff f) (chainedFixupsHeader f (fixupsOff f))) (MachContext.loaded f m B)

variable (h : WellFormedFile f base top chain tables)
  (hfit : B.toNat + pageUp (top - base) ≤ 2 ^ 64)
include h hfit

theorem chainedRun_eq_imageFixed (hB : B ≠ 0#64) :
    chainedRun E f (commands f) (MachContext.loaded f m B) = imageFixed E m f base chain B := by
  have hl := loadedAt_loaded h.image m B hfit
  rw [imageFixed, fileFixups, fixupsOff, chainedRun]
  rcases Nat.le_one_iff_eq_zero_or_eq_one.mp h.fixups.one with hnil | hone
  · rw [List.length_eq_zero_iff] at hnil
    rw [hnil]
    rfl
  · obtain ⟨fixups, hone⟩ := List.length_eq_one_iff.mp hone
    obtain ⟨hchains, hes⟩ := h.fixups.loaded h.image hB hfit hl.recorded hl.view_eq
      (hone ▸ List.mem_singleton_self fixups)
    have hwalk := dumpChainedFixups_eq E (MachContext.loaded f m B) hchains (by omega)
    have hzero := clearCounts_eq_self (c := MachContext.loaded f m B) rfl rfl
    rw [hes, hzero] at hwalk
    rw [hone, List.flatMap_singleton]
    exact hwalk

theorem fileFixups_apart : (fileFixups f base chain).Pairwise Fixup.Apart ∧
    ∀ e ∈ fileFixups f base chain,
      e.offset + 8 ≤ pageUp (top - base) ∧ e.raw = word64 (referenceImage f base) e.offset := by
  have hchains := h.fixups.chains
  rw [fileFixups]
  rcases Nat.le_one_iff_eq_zero_or_eq_one.mp h.fixups.one with hnil | hone
  · rw [List.length_eq_zero_iff] at hnil
    rw [hnil]
    simp
  · obtain ⟨fixups, hone⟩ := List.length_eq_one_iff.mp hone
    have hwf := hchains fixups (hone ▸ List.mem_singleton_self fixups)
    rw [hone, List.flatMap_singleton]
    exact ⟨hwf.pairwise (by omega),
      fun e he => ⟨hwf.inImage he, raw_of_mem_payloadFixups he⟩⟩

theorem load64_imageFixed {e : Fixup} (he : e ∈ fileFixups f base chain) :
    load64 (imageFixed E m f base chain B).mem (B + BitVec.ofNat 64 e.offset) =
      (fixupValue E f (fixupsOff f) (chainedFixupsHeader f (fixupsOff f)) B e.raw).getD e.raw := by
  have hl := loadedAt_loaded h.image m B hfit
  obtain ⟨hapart, hin⟩ := fileFixups_apart h hfit
  obtain ⟨hle, hraw⟩ := hin e he
  have hfresh : e.Fresh (MachContext.loaded f m B) := by
    rw [Fixup.Fresh, hraw]
    exact word64_congr fun i hi => hl.view_eq _ (by omega)
  have himg : (MachContext.loaded f m B).imgAddr = B := rfl
  rw [load64_eq_word64, imageFixed]
  generalize MachContext.loaded f m B = c at himg hfresh ⊢
  rw [← himg]
  exact word64_foldl_fixupStep E hapart he c hfresh

theorem view_imageFixed {o : ℕ} (ho : o < pageUp (top - base))
    (hslots : ∀ e ∈ fileFixups f base chain, ¬ (e.offset ≤ o ∧ o < e.offset + 8)) :
    view (imageFixed E m f base chain B).mem B o = referenceImage f base o := by
  have hl := loadedAt_loaded h.image m B hfit
  rw [← hl.view_eq o ho, imageFixed]
  unfold view
  refine mem_foldl_fixupStep E (MachContext.loaded f m B) fun e he hr => hslots e he ?_
  have hle := ((fileFixups_apart h hfit).2 e he).1
  exact (inRange_offset_iff B (by omega) (by omega) (by omega)).mp hr

theorem mem_imageFixed {x : Addr} (hx : pageUp (top - base) ≤ (x - B).toNat) :
    (imageFixed E m f base chain B).mem x = m x := by
  have hmem : (MachContext.loaded f m B).mem = loadedMem f m B base (pageUp (top - base)) :=
    h.image.mem_placed (MachContext.zero m) B
  rw [imageFixed, mem_foldl_fixupStep E (MachContext.loaded f m B), hmem,
    loadedMem_of_le h.image m B hx]
  intro e he hr
  have hle := ((fileFixups_apart h hfit).2 e he).1
  have hr : InRange (B + BitVec.ofNat 64 e.offset) 8 (B + BitVec.ofNat 64 (x - B).toNat) := by
    rwa [add_ofNat_toNat_sub]
  have hlt := ((inRange_offset_iff B (BitVec.isLt _) (by omega) (by omega)).mp hr).2
  omega

/-- **Loading a well-formed file** is loading its segments, acting on the chain entries, and recording
the rows of the bind tables at their slots. -/
theorem loader64_wellFormed (hB : B ≠ 0#64)
    (hmap : E.mmap [] (BitVec.ofNat 64 base) (BitVec.ofNat 64 (pageUp (top - base))) = some B) :
    ∃ c, loader64 E f (MachContext.zero m) = (0, c) ∧ c.imgAddr = B ∧
      c.vAddr = BitVec.ofNat 64 base ∧ c.dList = dylibsOf (commands f) ∧
      c.entryPoint = fileEntry f base B ∧
      RecordsSlots f base (top - base) B (programsRows tables) c ∧
      c.mem = (imageFixed E m f base chain B).mem ∧
      c.chainedUnresolvedBindCount = BitVec.ofNat 32
        ((fileFixups f base chain).countP (Fixup.unresolved E f (fixupsOff f))) := by
  have hbase : (hull f).1 = BitVec.ofNat 64 base := congrArg Prod.fst h.image.hull_eq
  have hup := le_pageUp (top - base)
  have hload := loader64_segmentsFirst E f (h.image.maps hB hmap) h.image.executable h.image.sized
    h.first m
  have hcount : (imageFixed E m f base chain B).chainedUnresolvedBindCount = BitVec.ofNat 32
      ((fileFixups f base chain).countP (Fixup.unresolved E f (fixupsOff f))) := by
    rw [imageFixed, foldl_fixupStep]
    have hzero : (MachContext.loaded f m B).chainedUnresolvedBindCount = 0#32 := rfl
    simp only [hzero, BitVec.zero_add, isUnresolved_eq]
    rfl
  have hrecs := recs_loaded f m B
  rw [hbase] at hrecs
  have hrecord : ∀ row ∈ programsRows tables,
      row.record (MachContext.loaded f m B).segments =
        ⟨row.symbol, B + BitVec.ofNat 64 (slotOffset f base row)⟩ ∧
      slotOffset f base row + 8 ≤ top - base := by
    intro row hrow
    obtain ⟨p, -, hp⟩ := List.mem_flatMap.mp hrow
    exact record_eq h.image h.text hB (by omega) hrecs (segment_lt_of_mem_bindRows hp)
      (h.slots row hrow)
  have hrows : (infosOf (commands f)).flatMap
      (dyldInfoRecords E f (MachContext.loaded f m B).segments) =
        (programsRows tables).map (BindRegs.record (MachContext.loaded f m B).segments) := by
    rw [h.infos, List.flatMap_map, programsRows, List.map_flatMap]
    exact List.flatMap_congr fun p hp => (h.streams p hp).dyldInfoRecords_eq E _
  obtain ⟨himg, hsegs⟩ := atImage_chainedRun E f (commands f) (MachContext.loaded f m B)
  rw [chainedRun_eq_imageFixed E m h hfit hB] at hload himg hsegs
  generalize imageFixed E m f base chain B = e at *
  rw [withTables_loaded, entryOf_loaded, hrows, hbase] at hload
  refine ⟨_, hload, ?_⟩
  dsimp only [MachContext.withImage, MachContext.atPtr]
  refine ⟨himg, (vAddr_loaded f m B).trans hbase, rfl, rfl, ⟨?_, ?_, ?_⟩, rfl, hcount⟩
  · rw [hsegs]
  · rw [hsegs]
    exact fun row hrow => (hrecord row hrow).1
  · exact fun row hrow => (hrecord row hrow).2

end Loading

/-! ## The call -/

section Call

variable {S : System} {argv : List CString} {m : Mem 64} {c : MachContext}

/-- An image at `B` with every chain entry and every row of a bind table acted on, over the memory `m`. -/
structure BoundImage (S : System) (f : File) (base top : ℕ) (chain : ℕ → ℕ → List ℕ)
    (tables : List BindPrograms) (B : Addr) (m m' : Mem 64) : Prop where
  entries : ∀ e ∈ fileFixups f base chain, load64 m' (B + BitVec.ofNat 64 e.offset) =
    (fixupValue S.loaderEnv f (fixupsOff f) (chainedFixupsHeader f (fixupsOff f)) B e.raw).getD e.raw
  rows : ∀ row ∈ programsRows tables, ∀ name, row.symbol = some name →
    load64 m' (B + BitVec.ofNat 64 (slotOffset f base row)) =
      (hostValue S.host (openLibraries S.host (boundLibraries (dylibsOf (commands f))))
        (dropUnderscore name)).getD (word64 (referenceImage f base) (slotOffset f base row))
  rest : ∀ o < pageUp (top - base),
    (∀ e ∈ fileFixups f base chain, ¬ (e.offset ≤ o ∧ o < e.offset + 8)) →
    (∀ row ∈ programsRows tables, ¬ (slotOffset f base row ≤ o ∧ o < slotOffset f base row + 8)) →
      m' (B + BitVec.ofNat 64 o) = referenceImage f base o
  outside : ∀ x, pageUp (top - base) ≤ (x - B).toNat → m' x = m x

/-- **Binding what was loaded** makes the bound image. -/
theorem boundImage_bound (h : WellFormedFile f base top chain tables)
    (hfit : B.toNat + pageUp (top - base) ≤ 2 ^ 64) (himg : c.imgAddr = B)
    (hdlist : c.dList = dylibsOf (commands f))
    (hslots : RecordsSlots f base (top - base) B (programsRows tables) c)
    (hmem : c.mem = (imageFixed S.loaderEnv m f base chain B).mem) :
    BoundImage S f base top chain tables B m (c.bound S.host).mem := by
  have hup := le_pageUp (top - base)
  have hlt := h.image.lt_top
  have hkeep : ∀ o < pageUp (top - base),
      (∀ row ∈ programsRows tables,
        ¬ (slotOffset f base row ≤ o ∧ o < slotOffset f base row + 8)) →
      (c.bound S.host).mem (B + BitVec.ofNat 64 o) = c.mem (B + BitVec.ofNat 64 o) := by
    intro o ho hrows
    have hpos : (B + BitVec.ofNat 64 o - B).toNat = o := toNat_add_sub_self B (by omega)
    exact hslots.mem_bound (by omega) (by rwa [hpos])
  refine ⟨fun e he => ?_, fun row hrow name hname => ?_, fun o ho hes hrows => ?_, fun x hx => ?_⟩
  · have hword : load64 (c.bound S.host).mem (B + BitVec.ofNat 64 e.offset) =
        load64 c.mem (B + BitVec.ofNat 64 e.offset) := by
      rw [load64_eq_word64, load64_eq_word64]
      refine word64_congr fun i hi => hkeep _ ?_ fun row hrow => ?_
      · have hle := ((fileFixups_apart h hfit).2 e he).1
        omega
      · have hdisj := h.disjoint row hrow e he
        omega
    rw [hword, hmem, load64_imageFixed S.loaderEnv m h hfit he]
  · have hle := hslots.slot_le row hrow
    have hold : load64 c.mem (B + BitVec.ofNat 64 (slotOffset f base row)) =
        word64 (referenceImage f base) (slotOffset f base row) := by
      rw [load64_eq_word64, hmem]
      refine word64_congr fun i hi => view_imageFixed S.loaderEnv m h hfit (by omega) fun e he => ?_
      have hdisj := h.disjoint row hrow e he
      omega
    rw [hslots.load64_bound (by omega) himg (hslots.pairwise (by omega) h.apart) hrow
      (h.slots row hrow).ne_zero hname, hdlist, hold]
  · have hview := view_imageFixed S.loaderEnv m h hfit ho hes
    rw [view] at hview
    rw [hkeep o ho hrows, hmem, hview]
  · have hout : ∀ row ∈ programsRows tables, ¬ (slotOffset f base row ≤ (x - B).toNat ∧
        (x - B).toNat < slotOffset f base row + 8) := fun row hrow hin => by
      have hle := hslots.slot_le row hrow
      omega
    rw [hslots.mem_bound (by omega) hout, hmem]
    exact mem_imageFixed S.loaderEnv m h hfit hx

/-- **The run gets to the call** with the bound image. -/
theorem main_eq_called (h : WellFormedFile f base top chain tables) (hopens : Opens S argv f 64)
    (hB : B ≠ 0#64)
    (hmap : S.env.mmap [] (BitVec.ofNat 64 base) (BitVec.ofNat 64 (pageUp (top - base))) = some B)
    (hfit : B.toNat + pageUp (top - base) ≤ 2 ^ 64) :
    let n := BitVec.ofNat 32
      ((fileFixups f base chain).countP (Fixup.unresolved S.loaderEnv f (fixupsOff f)))
    let entry := (fileEntry f base B).getD 0#64
    ∃ d, main S argv m = .called entry argv.length argv
        ((if entry = 0#64 then [.noEntryPoint] else []) ++
          if n ≠ 0#32 then [.unresolvedChainedBinds n] else []) d ∧
      BoundImage S f base top chain tables B m d.mem := by
  intro n entry
  obtain ⟨c, hload, himg, hv, hdlist, hentry, hslots, hmem, hcount⟩ :=
    loader64_wellFormed S.loaderEnv m h hfit hB hmap
  have hrun : runLoader S.loaderEnv f 64 (MachContext.zero m) = some (0, c) := by
    rw [← hload]
    exact if_neg (by decide)
  have hnamed : ¬ NamelessBind S.host c := by
    rintro ⟨-, r, hr, hnameless⟩
    exact not_named_iff.mpr hnameless (hslots.named (fun row hrow => (h.slots row hrow).symbol) r hr)
  have hbase : BitVec.ofNat 64 base ≠ 0#64 := by
    intro he
    have hnat := congrArg BitVec.toNat he
    rw [BitVec.toNat_ofNat, Nat.mod_eq_of_lt h.image.base_lt] at hnat
    exact h.image.base_ne hnat
  have hwarn : loadWarnings 64 0 c = (if entry = 0#64 then [.noEntryPoint] else []) ++
      if n ≠ 0#32 then [.unresolvedChainedBinds n] else [] := by
    rw [loadWarnings, himg, hv, MachContext.entry, hentry, hcount, if_neg (not_not.mpr rfl),
      if_neg (by simp [hB, hbase]), List.nil_append, List.nil_append]
  have hcalled := (handOver_eq argv hrun).2 hnamed
  rw [← hopens.main_eq, hwarn, MachContext.entry, hentry] at hcalled
  exact ⟨c.bound S.host, hcalled, boundImage_bound h hfit himg hdlist hslots hmem⟩

end Call

/-- **What is called**: the reference image, in which every chain entry and every row of a bind table
has been acted on. A rebase has become its target in the image; a chained bind what the host resolves
its import to, with the addend; the slot of a row what the last library that knows its symbol says.
A bind without an address is left as the file has it, like every other byte, and nothing outside the
image is written. Reported are a missing `_main` and the number of chained binds without an address,
and nothing else. -/
theorem main_image (S : System) (argv : List CString) (m : Mem 64)
    (h : WellFormedFile f base top chain tables) (hopens : Opens S argv f 64) (hB : B ≠ 0#64)
    (hmap : S.env.mmap [] (BitVec.ofNat 64 base) (BitVec.ofNat 64 (pageUp (top - base))) = some B)
    (hfit : B.toNat + pageUp (top - base) ≤ 2 ^ 64) :
    let es := fileFixups f base chain
    let rows := programsRows tables
    let place (o : ℕ) := B + BitVec.ofNat 64 o
    let address (e : Fixup) := importAddress S.loaderEnv f (fixupsOff f) e.raw
    let libraries := openLibraries S.host (boundLibraries (dylibsOf (commands f)))
    let n := BitVec.ofNat 32 (es.countP (Fixup.unresolved S.loaderEnv f (fixupsOff f)))
    let entry := (fileEntry f base B).getD 0#64
    ∃ d, main S argv m = .called entry argv.length argv
        ((if entry = 0#64 then [.noEntryPoint] else []) ++
          if n ≠ 0#32 then [.unresolvedChainedBinds n] else []) d ∧
      (∀ e ∈ es, load64 d.mem (place e.offset) =
        if chained64IsBind e.raw then
          if address e = 0#64 then e.raw
          else address e + (chained64BindAddend e.raw).signExtend 64
        else B + chained64RebaseTarget e.raw) ∧
      (∀ row ∈ rows, ∀ name, row.symbol = some name →
        load64 d.mem (place (slotOffset f base row)) =
          (hostValue S.host libraries (dropUnderscore name)).getD
            (word64 (referenceImage f base) (slotOffset f base row))) ∧
      (∀ o < pageUp (top - base), (∀ e ∈ es, ¬ (e.offset ≤ o ∧ o < e.offset + 8)) →
        (∀ row ∈ rows, ¬ (slotOffset f base row ≤ o ∧ o < slotOffset f base row + 8)) →
        d.mem (place o) = referenceImage f base o) ∧
      ∀ x, pageUp (top - base) ≤ (x - B).toNat → d.mem x = m x := by
  intro es rows place address libraries n entry
  obtain ⟨d, hcalled, himage⟩ := main_eq_called (m := m) h hopens hB hmap hfit
  refine ⟨d, hcalled, fun e he => ?_, himage.rows, himage.rest, himage.outside⟩
  rw [himage.entries e he, fixupValue_eq]
  split_ifs <;> rfl

theorem slot_named : 0#8 ∉ lit "_sin" := by decide

theorem slot_offset : ¬ continues 0x10#8 := by decide

/-- The bind program of one pointer to `sin`, sixteen bytes into the first segment. -/
def slotProgram : List BindOp :=
  [.setSymbolTrailingFlagsImm 0 ⟨lit "_sin", slot_named⟩,
    .setSegmentAndOffsetUleb 0 (Uleb.ofByte 0x10 slot_offset), .doBind 0]

/-- Fixups for the first page of the second of two segments, with the imports `_sin` and `_gone`. -/
def programPayload : File :=
  [leBytes 4 0, leBytes 4 28, leBytes 4 64, leBytes 4 72, leBytes 4 2, leBytes 8 1, leBytes 4 2,
    leBytes 4 0, leBytes 4 12, leBytes 4 24, leBytes 2 0x1000, leBytes 2 6, leBytes 8 0x1000, leBytes 4 0,
    leBytes 2 1, leBytes 2 0, leBytes 4 0, leBytes 4 (5 <<< 9), lit "_sin" ++ [0#8],
    lit "_gone" ++ [0#8]].flatten

/-- `__TEXT` with a pointer to `sin`; `__DATA` with a rebase to `0x40`, a bind of `_sin` with the addend `2`,
one of `_gone`, and a lazy pointer to `puts`; and `_main` at `0x4020`. -/
def programFile : File :=
  [encodeHeader 6, encodeSegment64 (lit "__TEXT") 0x4000 0x1000 0 4,
    encodeSegment64 (lit "__DATA") 0x5000 0x1000 293 24, encodeChainedFixups 317 83,
    encodeDyldInfo 400 9 409 11, encodeLoadDylib (lit "libz"), encodeSymtab 420 1 436,
    leBytes 8 0x10000000000040, leBytes 8 0x8010000002000000, leBytes 8 0x8000000000000001,
    programPayload, encodeProgram slotProgram, encodeProgram classicLazyProgram,
    encodeNlist64 0 0x4020, lit "_main" ++ [0#8]].flatten

theorem commands_programFile : commands programFile =
    [.segment64 ⟨72, lit "__TEXT" ++ List.replicate 10 0#8, 0x4000#64, 0x1000#64, 0#64, 4#64, 0#32⟩,
      .segment64 ⟨72, lit "__DATA" ++ List.replicate 10 0#8, 0x5000#64, 0x1000#64, 293#64, 24#64, 0#32⟩,
      .dyldChainedFixups ⟨317, 83⟩, .dyldInfo ⟨400, 9, 409, 11⟩, .loadDylib (lit "libz"),
      .symtab ⟨420, 1, 436⟩] := by
  decide +kernel

/-- The entries of its one chain. -/
def programChain (_ _ : ℕ) : List ℕ := [0x1000, 0x1008, 0x1010]

theorem wellFormedFixups_programFile : WellFormedFixups programFile 0x4000 0x2000 programChain := by
  have hchained : chainedOf (commands programFile) = [⟨317, 83⟩] := by rw [commands_programFile]; rfl
  have hcount : chainedSegCount programFile 317 = 2 := by decide +kernel
  have hoff : 317 + (chainedFixupsHeader programFile 317).startsOffset = 345 := by decide +kernel
  obtain ⟨hnone, hsome⟩ : (u32 programFile (345 + 4 + 4 * 0)).toNat = 0 ∧
      (u32 programFile (345 + 4 + 4 * 1)).toNat = 12 := by decide +kernel
  have hfirst : chainedStarts programFile 317 83 0 = none := by
    simp only [chainedStarts, hoff, hnone]
    rfl
  have hsecond : chainedStarts programFile 317 83 1 = some (chainedStartsInSegment programFile 357) := by
    simp only [chainedStarts, hoff, hsome]
    rw [if_neg (by decide), if_neg (by decide), if_pos (by decide +kernel)]
  have hstarts : ∀ i < chainedSegCount programFile 317, ∀ seg,
      seg ∈ walkedStarts programFile 317 83 (referenceTable programFile 0x4000) i →
        i = 1 ∧ seg = chainedStartsInSegment programFile 357 := by
    intro i hi seg hseg
    rw [hcount] at hi
    rw [walkedStarts] at hseg
    interval_cases i
    · rw [hfirst] at hseg
      cases hseg
    · rw [hsecond] at hseg
      exact ⟨rfl, (Option.some.inj (Option.mem_filter_iff.mp hseg).1).symm⟩
  refine ⟨by rw [hchained]; decide, fun fixups hfixups => ?_⟩
  rw [hchained] at hfixups
  obtain rfl := List.mem_singleton.mp hfixups
  refine ⟨by decide +kernel, by decide +kernel, by decide +kernel, fun i hi seg hseg => ?_,
    fun i hi seg hseg => ?_, fun j hj i hi s hs _ _ => ?_⟩
  · rw [(hstarts i hi seg hseg).2]
    decide +kernel
  · rw [(hstarts i hi seg hseg).2]
    obtain ⟨hpages, hbase, hsize, hstart⟩ :
        (chainedStartsInSegment programFile 357).pageCount.toNat = 1 ∧
        (chainedStartsInSegment programFile 357).pageBase 0 = 0x1000 ∧
        (chainedStartsInSegment programFile 357).pageSize.toNat = 0x1000 ∧
        ((chainedStartsInSegment programFile 357).pageStart 0).toNat = 0 := by decide +kernel
    obtain ⟨hone, htwo, hthree⟩ : chainNext (referenceImage programFile 0x4000) 0x1000 = 8 ∧
        chainNext (referenceImage programFile 0x4000) 0x1008 = 8 ∧
        chainNext (referenceImage programFile 0x4000) 0x1010 = 0 := by decide +kernel
    refine ⟨by decide +kernel, fun page hp _ => ?_⟩
    obtain rfl : page = 0 := by omega
    rw [PageChain, hbase, hsize, hstart]
    exact .cons (by decide) (by decide) hone (by decide) (by decide)
      (.cons (by decide) (by decide) htwo (by decide) (by decide) (.last (by decide) (by decide) hthree))
  · have hone := (hstarts i (hi.trans hj) s hs).1
    rw [hcount] at hj
    omega

theorem bindRows_program : programsRows [⟨⟨400, 9, 409, 11⟩, slotProgram, classicLazyProgram⟩] =
    [⟨some (lit "_sin"), 0, 16#64⟩, ⟨some (lit "_puts"), 1, 32#64⟩] :=
  rfl

theorem slotOffset_program :
    slotOffset programFile 0x4000 ⟨some (lit "_sin"), 0, 16#64⟩ = 0x10 ∧
      slotOffset programFile 0x4000 ⟨some (lit "_puts"), 1, 32#64⟩ = 0x1020 := by
  rw [slotOffset, slotOffset, commands_programFile]
  decide

theorem fileFixups_program : fileFixups programFile 0x4000 programChain =
    [⟨1, 0x1000, 0x10000000000040#64⟩, ⟨1, 0x1008, 0x8010000002000000#64⟩,
      ⟨1, 0x1010, 0x8000000000000001#64⟩] := by
  decide +kernel

theorem wellFormedFile_programFile : WellFormedFile programFile 0x4000 0x6000 programChain
    [⟨⟨400, 9, 409, 11⟩, slotProgram, classicLazyProgram⟩] where
  image := by decide +kernel
  inside := ⟨by decide +kernel, by decide +kernel, by decide +kernel, by decide +kernel⟩
  first := ⟨segmentsOf (commands programFile), (commands programFile).drop 2,
    by rw [commands_programFile]; rfl, by rw [commands_programFile]; rfl⟩
  text := by
    rw [imageSegments, commands_programFile]
    decide
  fixups := wellFormedFixups_programFile
  infos := by rw [commands_programFile]; rfl
  streams p hp := by
    obtain rfl := List.mem_singleton.mp hp
    exact ⟨by decide +kernel, by decide +kernel, by decide +kernel, by decide +kernel⟩
  slots row hrow := by
    rw [bindRows_program] at hrow
    revert row
    decide +kernel
  apart := by
    obtain ⟨hsin, hputs⟩ := slotOffset_program
    rw [bindRows_program, List.pairwise_pair, hsin, hputs]
    decide
  disjoint row hrow := by
    obtain ⟨hsin, hputs⟩ := slotOffset_program
    rw [bindRows_program] at hrow
    rw [fileFixups_program]
    rcases List.mem_pair.mp hrow with rfl | rfl
    · rw [hsin]
      decide
    · rw [hputs]
      decide

/-- The system that has `programFile` under every name and maps at `0x7000`. -/
def programSystem : System where
  env := { Env.plain with mmap := fun _ _ _ => some 0x7000#64 }
  host := smallHost
  file _ := some programFile

/-- `_main` is called at `0x7020`. The rebase has become `0x7040`, the bind `sin + 2`, and the other one is
left and reported; the slots hold `sin` and `puts`. -/
theorem main_image_programFile :
    ∃ d, main programSystem [lit "prog", lit "-x"] (fun _ => 0#8) =
        .called 0x7020#64 2 [lit "prog", lit "-x"] [.unresolvedChainedBinds 1#32] d ∧
      load64 d.mem 0x8000#64 = 0x7040#64 ∧ load64 d.mem 0x8008#64 = 5#64 ∧
      load64 d.mem 0x8010#64 = 0x8000000000000001#64 ∧ load64 d.mem 0x7010#64 = 3#64 ∧
      load64 d.mem 0x8020#64 = 2#64 ∧ d.mem 0x7000#64 = 0xcf#8 := by
  have hopens : Opens programSystem [lit "prog", lit "-x"] programFile 64 :=
    ⟨⟨_, _, rfl, rfl⟩, by decide +kernel⟩
  obtain ⟨d, hmain, hentries, hrows, hrest, -⟩ := main_image programSystem _ (fun _ => 0#8)
    wellFormedFile_programFile hopens (B := 0x7000#64) (by decide) rfl (by decide)
  have hentry : fileEntry programFile 0x4000 0x7000#64 = some 0x7020#64 := by decide +kernel
  have hlibs : openLibraries programSystem.host (boundLibraries (dylibsOf (commands programFile))) =
      [0x10#64, 0x20#64] := by rw [commands_programFile]; decide
  have hoff : fixupsOff programFile = 317 := by rw [fixupsOff, commands_programFile]; rfl
  obtain ⟨hsin, hgone⟩ : importAddress programSystem.loaderEnv programFile 317 0x8010000002000000#64 = 3#64 ∧
      importAddress programSystem.loaderEnv programFile 317 0x8000000000000001#64 = 0#64 := by
    decide +kernel
  obtain ⟨hslot, hlazy⟩ := slotOffset_program
  simp only [fileFixups_program, List.forall_mem_cons, hoff, hsin, hgone] at hentries
  obtain ⟨hrebase, hbind, hleft, -⟩ := hentries
  rw [hlibs, bindRows_program] at hrows
  have hsinSlot := hrows _ List.mem_cons_self (lit "_sin") rfl
  have hputsSlot := hrows _ (List.mem_cons_of_mem _ List.mem_cons_self) (lit "_puts") rfl
  rw [hslot] at hsinSlot
  rw [hlazy] at hputsSlot
  have hmagic := hrest 0 (by decide)
    (by rw [fileFixups_program]; decide)
    (by rw [bindRows_program, List.forall_mem_cons, List.forall_mem_singleton, hslot, hlazy]; decide)
  have hcount : (fileFixups programFile 0x4000 programChain).countP
      (Fixup.unresolved programSystem.loaderEnv programFile (fixupsOff programFile)) = 1 := by
    rw [fileFixups_program, hoff]
    decide +kernel
  rw [hentry, hcount] at hmain
  exact ⟨d, hmain, hrebase.trans (by decide +kernel), hbind.trans (by decide), hleft.trans (by decide),
    hsinSlot.trans (by decide +kernel), hputsSlot.trans (by decide +kernel),
    hmagic.trans (by decide +kernel)⟩

end Maloader
