import Maloader.Encode
import Maloader.Loader.Model
import Maloader.Chained.Relate

/-!
# Entries and what is stored for them

The log of a walk, chain by chain, is made of blocks: an entry and, where there is one, the store
made for it. What is stored is compared with the layout of the entries and of the imports table.

* `DyldChainedPtr64Bind`, `DyldChainedPtr64Rebase`: the fields of an entry by their layout;
  `chained64_bind_fields`, `chained64_rebase_fields`: the loader's decoders against them.
* `ChainedImport`, `declaredImport`: an entry of the imports table in its declared format;
  `strayOffsetAddend_eq`, `strayOffsetAddend64_eq`: what the loader takes for one.
* `entryEvents`, **`trace_dumpChainedFixups_eq`**: the log of a walk over any payload.
* **`store_follows_iff`**: the event behind an entry is its store.
* **`bindAddend_iff`**, **`rebaseValue_iff`**, **`importsFormat_iff`**: when the stored value is the
  one the layouts ask for.
* `entryPayload`, `entryFile`: a file with one entry.
-/

namespace Maloader

open ByteLib

/-! ## Layouts -/

/-- `struct dyld_chained_ptr_64_bind`. -/
structure DyldChainedPtr64Bind where
  ordinal : BitVec 24
  addend : BitVec 8
  next : BitVec 12
  bind : BitVec 1

/-- A word as a bind entry. -/
def dyldChainedPtr64Bind (raw : BitVec 64) : DyldChainedPtr64Bind where
  ordinal := raw.extractLsb' 0 24
  addend := raw.extractLsb' 24 8
  next := raw.extractLsb' 51 12
  bind := raw.extractLsb' 63 1

/-- `struct dyld_chained_ptr_64_rebase`. -/
structure DyldChainedPtr64Rebase where
  target : BitVec 36
  high8 : BitVec 8
  next : BitVec 12
  bind : BitVec 1

/-- A word as a rebase entry. -/
def dyldChainedPtr64Rebase (raw : BitVec 64) : DyldChainedPtr64Rebase where
  target := raw.extractLsb' 0 36
  high8 := raw.extractLsb' 36 8
  next := raw.extractLsb' 51 12
  bind := raw.extractLsb' 63 1

theorem shift_and_mask (raw : BitVec 64) (s k : ℕ) (mask : BitVec 64)
    (hmask : ∀ i < 64, mask.getLsbD i = decide (i < k)) :
    (raw >>> s) &&& mask = (raw.extractLsb' s k).setWidth 64 := by
  refine BitVec.eq_of_getLsbD_eq fun i hi => ?_
  rw [BitVec.getLsbD_and, hmask i hi, BitVec.getLsbD_ushiftRight, BitVec.getLsbD_setWidth,
    BitVec.getLsbD_extractLsb']
  simp [hi, Bool.and_comm]

theorem and_mask (raw : BitVec 64) (k : ℕ) (mask : BitVec 64)
    (hmask : ∀ i < 64, mask.getLsbD i = decide (i < k)) :
    raw &&& mask = (raw.extractLsb' 0 k).setWidth 64 := by
  have h := shift_and_mask raw 0 k mask hmask
  rwa [BitVec.ushiftRight_zero] at h

theorem chained64IsBind_iff (raw : BitVec 64) :
    chained64IsBind raw ↔ raw.extractLsb' 63 1 = 1#1 := by
  have h := shift_and_mask raw 63 1 1#64 (by decide)
  rw [chained64IsBind, h, decide_eq_true_iff]
  generalize raw.extractLsb' 63 1 = b
  revert b
  decide

/-- **The decoders of a bind entry** read the fields of the layout, the addend as it stands. -/
theorem chained64_bind_fields (raw : BitVec 64) :
    let entry := dyldChainedPtr64Bind raw
    chained64BindOrdinal raw = entry.ordinal.setWidth 32 ∧ chained64BindAddend raw = entry.addend ∧
      chained64Next raw = entry.next.setWidth 16 ∧ (chained64IsBind raw ↔ entry.bind = 1#1) := by
  refine ⟨?_, ?_, ?_, chained64IsBind_iff raw⟩
  · rw [chained64BindOrdinal, and_mask raw 24 _ (by decide)]
    exact BitVec.setWidth_setWidth_of_le _ (by norm_num)
  · rw [chained64BindAddend, shift_and_mask raw 24 8 _ (by decide),
      BitVec.setWidth_setWidth_of_le _ (by norm_num)]
    exact BitVec.setWidth_eq _
  · rw [chained64Next, shift_and_mask raw 51 12 _ (by decide)]
    exact BitVec.setWidth_setWidth_of_le _ (by norm_num)

/-- **The decoders of a rebase entry** read the fields of the layout; none reads `high8`. -/
theorem chained64_rebase_fields (raw : BitVec 64) :
    let entry := dyldChainedPtr64Rebase raw
    chained64RebaseTarget raw = entry.target.setWidth 64 ∧
      chained64Next raw = entry.next.setWidth 16 ∧ (chained64IsBind raw ↔ entry.bind = 1#1) :=
  ⟨and_mask raw 36 _ (by decide), (chained64_bind_fields raw).2.2.1, chained64IsBind_iff raw⟩

/-- An entry of the imports table; in `ordinalBits` are `lib_ordinal`, `weak_import` and `reserved`. -/
structure ChainedImport where
  ordinalBits : BitVec 32
  nameOffset : ℕ
  addend : BitVec 64

/-- `struct dyld_chained_import`. -/
def dyldChainedImport (f : File) (p : ℕ) : ChainedImport where
  ordinalBits := u32 f p &&& 0x1FF#32
  nameOffset := (u32 f p >>> 9).toNat
  addend := 0#64

/-- `struct dyld_chained_import_addend`. -/
def dyldChainedImportAddend (f : File) (p : ℕ) : ChainedImport where
  ordinalBits := u32 f p &&& 0x1FF#32
  nameOffset := (u32 f p >>> 9).toNat
  addend := (u32 f (p + 4)).signExtend 64

/-- `struct dyld_chained_import_addend64`. -/
def dyldChainedImportAddend64 (f : File) (p : ℕ) : ChainedImport where
  ordinalBits := (u64 f p).setWidth 32
  nameOffset := (u64 f p >>> 32).toNat
  addend := u64 f (p + 8)

/-- Entry `ordinal` of the imports table in the format that the header declares. -/
def declaredImport (f : File) (fixupsBase : ℕ) (hdr : ChainedFixupsHeader) (ordinal : ℕ) :
    Option ChainedImport :=
  let imports := fixupsBase + hdr.importsOffset
  if hdr.importsFormat = 1#32 then some (dyldChainedImport f (imports + 4 * ordinal))
  else if hdr.importsFormat = 2#32 then some (dyldChainedImportAddend f (imports + 8 * ordinal))
  else if hdr.importsFormat = 3#32 then some (dyldChainedImportAddend64 f (imports + 16 * ordinal))
  else none

/-- The string of the symbols at an offset. -/
def symbolAt (f : File) (fixupsBase : ℕ) (hdr : ChainedFixupsHeader) (nameOffset : ℕ) : CString :=
  cstrAt f (fixupsBase + hdr.symbolsOffset + nameOffset)

/-- The string an entry of the imports table names. -/
def importString (f : File) (fixupsBase : ℕ) (hdr : ChainedFixupsHeader) (imp : ChainedImport) :
    CString := symbolAt f fixupsBase hdr imp.nameOffset

/-- In a table of the second format, what stands at the place of entry `ordinal` of one of the first: the
name offset of an entry, or its addend without the low nine bits. -/
def strayOffsetAddend (f : File) (imports ordinal : ℕ) : ℕ :=
  let imp := dyldChainedImportAddend f (imports + 8 * (ordinal / 2))
  if ordinal % 2 = 0 then imp.nameOffset else (imp.addend.setWidth 32 >>> 9).toNat

/-- The same in a table of the third format: one of the four words of an entry. -/
def strayOffsetAddend64 (f : File) (imports ordinal : ℕ) : ℕ :=
  let imp := dyldChainedImportAddend64 f (imports + 16 * (ordinal / 4))
  match ordinal % 4 with
  | 0 => (imp.ordinalBits >>> 9).toNat
  | 1 => imp.nameOffset >>> 9
  | 2 => (imp.addend.setWidth 32 >>> 9).toNat
  | _ => (imp.addend >>> 41).toNat

theorem setWidth_signExtend (v : BitVec 32) : (v.signExtend 64).setWidth 32 = v := by
  refine BitVec.eq_of_getLsbD_eq fun i hi => ?_
  rw [BitVec.getLsbD_setWidth, BitVec.getLsbD_signExtend]
  simp [hi, show i < 64 by omega]

section Words

variable (f : File) (p : ℕ)

theorem toNat_u64 : (u64 f p).toNat = (u32 f p).toNat + 2 ^ 32 * (u32 f (p + 4)).toNat := by
  have hlt : ∀ q, leNat (bytesAt f q 4) < 2 ^ 32 := fun q => by
    simpa [bytesAt] using leNat_lt (bytesAt f q 4)
  have hsplit : leNat (bytesAt f p 8) =
      leNat (bytesAt f p 4) + 256 ^ 4 * leNat (bytesAt f (p + 4) 4) := by
    rw [bytesAt_add f p 4 4, leNat_append]
    rfl
  have hlow := hlt p
  have hhigh := hlt (p + 4)
  rw [u64, u32, u32, hsplit, BitVec.toNat_ofNat, BitVec.toNat_ofNat, BitVec.toNat_ofNat]
  omega

theorem setWidth_u64 : (u64 f p).setWidth 32 = u32 f p := by
  have hlt := (u32 f p).isLt
  apply BitVec.eq_of_toNat_eq
  rw [BitVec.toNat_setWidth, toNat_u64]
  omega

theorem toNat_u64_high : (u64 f p >>> 32).toNat = (u32 f (p + 4)).toNat := by
  have hlt := (u32 f p).isLt
  rw [BitVec.toNat_ushiftRight, Nat.shiftRight_eq_div_pow, toNat_u64]
  omega

variable (imports ordinal : ℕ)

/-- **The word that is read** in a table of the second format. -/
theorem strayOffsetAddend_eq :
    (dyldChainedImport f (imports + 4 * ordinal)).nameOffset = strayOffsetAddend f imports ordinal := by
  unfold strayOffsetAddend dyldChainedImport dyldChainedImportAddend
  dsimp only
  split_ifs with hpar
  · rw [show imports + 4 * ordinal = imports + 8 * (ordinal / 2) by omega]
  · rw [setWidth_signExtend, show imports + 4 * ordinal = imports + 8 * (ordinal / 2) + 4 by omega]

theorem strayOffsetAddend64_eq :
    (dyldChainedImport f (imports + 4 * ordinal)).nameOffset = strayOffsetAddend64 f imports ordinal := by
  have hplace : imports + 4 * ordinal = imports + 16 * (ordinal / 4) + 4 * (ordinal % 4) := by omega
  have hlt : ordinal % 4 < 4 := Nat.mod_lt _ (by norm_num)
  unfold strayOffsetAddend64 dyldChainedImport dyldChainedImportAddend64
  rw [hplace]
  generalize imports + 16 * (ordinal / 4) = p
  dsimp only
  interval_cases ordinal % 4
  · exact congrArg (fun v : BitVec 32 => (v >>> 9).toNat) (setWidth_u64 f p).symm
  · exact (BitVec.toNat_ushiftRight _ _).trans (congrArg (· >>> 9) (toNat_u64_high f p).symm)
  · exact congrArg (fun v : BitVec 32 => (v >>> 9).toNat) (setWidth_u64 f (p + 8)).symm
  · have hhigh : (u64 f (p + 8) >>> 41).toNat = (u64 f (p + 8) >>> 32).toNat >>> 9 := by
      rw [BitVec.toNat_ushiftRight, BitVec.toNat_ushiftRight, ← Nat.shiftRight_add]
    exact (BitVec.toNat_ushiftRight _ _).trans
      ((congrArg (· >>> 9) (toNat_u64_high f (p + 8)).symm).trans hhigh.symm)

end Words

section Declared

variable {f : File} {fixupsBase : ℕ} {hdr : ChainedFixupsHeader}

theorem declaredImport_eq_some {ordinal : ℕ} {imp : ChainedImport}
    (h : declaredImport f fixupsBase hdr ordinal = some imp) :
    (hdr.importsFormat = 1#32 ∧
      imp = dyldChainedImport f (fixupsBase + hdr.importsOffset + 4 * ordinal)) ∨
    (hdr.importsFormat = 2#32 ∧
      imp = dyldChainedImportAddend f (fixupsBase + hdr.importsOffset + 8 * ordinal)) ∨
    (hdr.importsFormat = 3#32 ∧
      imp = dyldChainedImportAddend64 f (fixupsBase + hdr.importsOffset + 16 * ordinal)) := by
  unfold declaredImport at h
  split_ifs at h with h1 h2 h3
  · exact .inl ⟨h1, (Option.some.inj h).symm⟩
  · exact .inr (.inl ⟨h2, (Option.some.inj h).symm⟩)
  · exact .inr (.inr ⟨h3, (Option.some.inj h).symm⟩)

end Declared

variable (E : Env) (f : File) (fixupsBase : ℕ) (hdr : ChainedFixupsHeader)

theorem chainedImportName_eq {ordinal : BitVec 32} (h : ordinal < hdr.importsCount) :
    chainedImportName f fixupsBase hdr ordinal = some (importString f fixupsBase hdr
      (dyldChainedImport f (fixupsBase + hdr.importsOffset + 4 * ordinal.toNat))) :=
  if_neg (BitVec.not_le.mpr h)

/-! ## The log -/

/-- The accesses of the entry `e` of a segment: its location and its word, and the store. -/
def entryEvents (img : Addr) (e : ℕ × Addr × BitVec 64) : List Event :=
  .fixup e.1 e.2.1 e.2.2 ::
    (fixupValue E f fixupsBase hdr img e.2.2).toList.map (.store e.2.1)

/-- **The log of a walk** over any payload is one block for each entry it comes to. -/
theorem trace_dumpChainedFixups_eq (c : MachContext) (dataoff datasize : ℕ) :
    ∃ es : List (ℕ × Addr × BitVec 64), (dumpChainedFixups E f c dataoff datasize).trace =
      c.trace ++ es.flatMap (entryEvents E f dataoff (chainedFixupsHeader f dataoff) c.imgAddr) := by
  let P (c' : MachContext) : Prop := c'.imgAddr = c.imgAddr ∧
    ∃ es : List (ℕ × Addr × BitVec 64), c'.trace =
      c.trace ++ es.flatMap (entryEvents E f dataoff (chainedFixupsHeader f dataoff) c.imgAddr)
  have hstart : P c.resetCounts := ⟨rfl, [], (List.append_nil _).symm⟩
  refine (dumpChainedFixups_inv (P := P) hstart ?_).2
  rintro c' segment loc raw ⟨himg, es, htrace⟩
  rw [chainedEntry_eq]
  refine ⟨himg, es ++ [(segment, loc, raw)], ?_⟩
  rw [List.flatMap_append, List.flatMap_singleton, ← List.append_assoc, ← htrace, himg]
  rfl

theorem entryEvents_split {img : Addr} {es : List (ℕ × Addr × BitVec 64)} {pre post : List Event}
    {segment : ℕ} {loc : Addr} {raw : BitVec 64}
    (h : es.flatMap (entryEvents E f fixupsBase hdr img) = pre ++ .fixup segment loc raw :: post) :
    ∃ es' : List (ℕ × Addr × BitVec 64), post =
      (fixupValue E f fixupsBase hdr img raw).toList.map (.store loc) ++
        es'.flatMap (entryEvents E f fixupsBase hdr img) := by
  induction es generalizing pre with
  | nil => simp at h
  | cons e es ih =>
    rw [List.flatMap_cons, entryEvents, List.cons_append] at h
    cases pre with
    | nil =>
      obtain ⟨hhead, htail⟩ := List.cons_eq_cons.mp h
      obtain ⟨-, rfl, rfl⟩ := Event.fixup.inj hhead
      exact ⟨es, htail.symm⟩
    | cons x pre =>
      have htail := (List.cons_eq_cons.mp h).2
      cases hv : fixupValue E f fixupsBase hdr img e.2.2 with
      | none =>
        rw [hv] at htail
        exact ih htail
      | some v =>
        rw [hv] at htail
        cases pre with
        | nil => exact absurd (List.cons_eq_cons.mp htail).1 (by simp)
        | cons y pre => exact ih (List.cons_eq_cons.mp htail).2

/-- **The event behind an entry** is a store to its location exactly if the entry stores. -/
theorem store_follows_iff {c : MachContext} {dataoff datasize : ℕ} {pre post : List Event}
    {segment : ℕ} {loc : Addr} {raw : BitVec 64}
    (hlog : (dumpChainedFixups E f c dataoff datasize).trace =
      c.trace ++ (pre ++ .fixup segment loc raw :: post)) (v : BitVec 64) :
    post.head? = some (.store loc v) ↔
      fixupValue E f dataoff (chainedFixupsHeader f dataoff) c.imgAddr raw = some v := by
  obtain ⟨es, hes⟩ := trace_dumpChainedFixups_eq E f c dataoff datasize
  obtain ⟨es', rfl⟩ := entryEvents_split E f dataoff (chainedFixupsHeader f dataoff)
    (List.append_cancel_left (hes.symm.trans hlog))
  cases fixupValue E f dataoff (chainedFixupsHeader f dataoff) c.imgAddr raw with
  | none => cases es' <;> simp [entryEvents]
  | some v' => simp

/-! ## A file with one entry -/

/-- Chained fixups for the first word of one page, with an imports table. -/
def entryPayload (importsFormat importsCount : ℕ) (imports symbols : File) : File :=
  leBytes 4 0 ++ leBytes 4 28 ++ leBytes 4 60 ++ leBytes 4 (60 + imports.length) ++
    leBytes 4 importsCount ++ leBytes 4 importsFormat ++ leBytes 4 0 ++ leBytes 4 1 ++ leBytes 4 8 ++
    leBytes 4 24 ++ leBytes 2 0x1000 ++ leBytes 2 malDyldChainedPtr64Offset.toNat ++ leBytes 8 0 ++
    leBytes 4 0 ++ leBytes 2 1 ++ leBytes 2 0 ++ imports ++ symbols

/-- A segment that begins with the word `raw`, and fixups for it. -/
def entryFile (raw : BitVec 64) (payload : File) : File :=
  encodeHeader 2 ++ encodeSegment64 (lit "__DATA") 0x4000 0x1000 120 8 ++
    encodeChainedFixups 128 payload.length ++ leBytes 8 raw.toNat ++ payload

/-- The image is mapped at `0x7000`; `_f` and `_g` are known. -/
def entryEnv : Env :=
  { Env.plain with
    mmap := fun _ _ _ => some 0x7000#64
    resolve := fun name => if name = lit "_f" then 0x5000#64 else if name = lit "_g" then 0x6000#64 else 0#64 }

/-- The loader on a file with one entry. -/
def entryRun (raw : BitVec 64) (payload : File) : MachContext :=
  (loader64 entryEnv (entryFile raw payload) (MachContext.zero fun _ => 0#8)).2

/-- One import of the first format, `_f`. -/
def oneImport : File := entryPayload 1 1 (leBytes 4 0) (lit "_f" ++ [0#8])

/-- Two imports of the second format, `_f` and `_g`. -/
def twoImports : File :=
  entryPayload 2 2 (leBytes 4 0 ++ leBytes 4 0 ++ leBytes 4 (3 <<< 9) ++ leBytes 4 0)
    (lit "_f" ++ [0#8] ++ lit "_g" ++ [0#8])

/-- The context in front of the fixups of such a file. -/
def entryContext (raw : BitVec 64) : MachContext :=
  { MachContext.zero fun x => byteAt (leBytes 8 raw.toNat) (x - 0x7000#64).toNat with
    imgAddr := 0x7000#64
    segments := ⟨[⟨lit "__DATA", 0x4000#64, 0x1000#64, 0x7000#64⟩], by decide⟩ }

/-! ## Stored values against the layouts -/

section Stored

variable {c : MachContext} {dataoff datasize : ℕ} {pre post : List Event} {segment : ℕ} {loc : Addr}
  {raw : BitVec 64}

theorem fixupValue_of_bind {img : Addr} {name : CString}
    (hbind : (dyldChainedPtr64Bind raw).bind = 1#1)
    (hname : chainedImportName f fixupsBase hdr
      ((dyldChainedPtr64Bind raw).ordinal.setWidth 32) = some name)
    (hresolve : E.resolve name ≠ 0#64) :
    fixupValue E f fixupsBase hdr img raw =
      some (E.resolve name + (dyldChainedPtr64Bind raw).addend.signExtend 64) := by
  obtain ⟨hordinal, haddend, -, hisBind⟩ := chained64_bind_fields raw
  rw [fixupValue, if_pos (hisBind.mpr hbind), hordinal, haddend, hname, Option.bind_some,
    if_neg hresolve]

theorem signExtend_eq_setWidth_iff (x : BitVec 8) :
    x.signExtend 64 = x.setWidth 64 ↔ x.toNat < 128 := by
  revert x
  decide

/-- **The addend of a bind.** In every walk the value stored for a bind entry whose import resolves is
the address plus the addend field, taken as `0` through `255`, exactly if the field is below `128`. -/
theorem bindAddend_iff {name : CString}
    (hlog : (dumpChainedFixups E f c dataoff datasize).trace =
      c.trace ++ (pre ++ .fixup segment loc raw :: post))
    (hbind : (dyldChainedPtr64Bind raw).bind = 1#1)
    (hname : chainedImportName f dataoff (chainedFixupsHeader f dataoff)
      ((dyldChainedPtr64Bind raw).ordinal.setWidth 32) = some name)
    (hresolve : E.resolve name ≠ 0#64) :
    post.head? = some (.store loc
        (E.resolve name + (dyldChainedPtr64Bind raw).addend.setWidth 64)) ↔
      (dyldChainedPtr64Bind raw).addend.toNat < 128 := by
  rw [store_follows_iff E f hlog, fixupValue_of_bind E f dataoff _ hbind hname hresolve,
    Option.some_inj, add_right_inj, signExtend_eq_setWidth_iff]

theorem bindAddend_iff_seven :
    let raw := 0x8000000007000000#64
    ([.store 0x7000#64 0x5007#64] : List Event).head? = some (.store 0x7000#64
      (entryEnv.resolve (lit "_f") + (dyldChainedPtr64Bind raw).addend.setWidth 64)) := by
  intro raw
  have hlog : (dumpChainedFixups entryEnv oneImport (entryContext raw) 0 oneImport.length).trace =
      (entryContext raw).trace ++ ([] ++ .fixup 0 0x7000#64 raw :: [.store 0x7000#64 0x5007#64]) := by
    decide +kernel
  exact (bindAddend_iff entryEnv oneImport hlog (by decide) (by decide +kernel) (by decide +kernel)).mpr
    (by decide)

/-- The addend `255` is taken off as `1`. -/
theorem entryRun_addend :
    let raw := 0x80000000FF000000#64
    let c := entryRun raw oneImport
    (dyldChainedPtr64Bind raw).bind = 1#1 ∧ (dyldChainedPtr64Bind raw).addend = 255#8 ∧
      c.trace = [.copy 0x7000#64 120 8, .fixup 0 0x7000#64 raw, .store 0x7000#64 0x4FFF#64] ∧
      load64 c.mem 0x7000#64 ≠ entryEnv.resolve (lit "_f") + 255#64 := by
  decide +kernel

theorem setWidth_shiftLeft_eq_zero_iff (x : BitVec 8) :
    x.setWidth 64 <<< 56 = 0#64 ↔ x = 0#8 := by
  revert x
  decide

/-- **The value of a rebase.** In every walk the value stored for a rebase entry is the address of the
image plus the target with `high8` as its top byte exactly if `high8` is zero. -/
theorem rebaseValue_iff
    (hlog : (dumpChainedFixups E f c dataoff datasize).trace =
      c.trace ++ (pre ++ .fixup segment loc raw :: post))
    (hrebase : (dyldChainedPtr64Rebase raw).bind = 0#1) :
    let entry := dyldChainedPtr64Rebase raw
    post.head? = some (.store loc
        (c.imgAddr + (entry.high8.setWidth 64 <<< 56 + entry.target.setWidth 64))) ↔
      entry.high8 = 0#8 := by
  intro entry
  obtain ⟨htarget, -, hisBind⟩ := chained64_rebase_fields raw
  have hnot : ¬ chained64IsBind raw := fun hb => by
    have h := hisBind.mp hb
    rw [hrebase] at h
    exact absurd h (by decide)
  rw [store_follows_iff E f hlog, fixupValue, if_neg hnot, htarget, Option.some_inj, add_right_inj,
    right_eq_add]
  exact setWidth_shiftLeft_eq_zero_iff entry.high8

theorem rebaseValue_iff_untagged :
    let raw := 0x40#64
    ([.store 0x7000#64 0x7040#64] : List Event).head? = some (.store 0x7000#64
      (0x7000#64 + ((dyldChainedPtr64Rebase raw).high8.setWidth 64 <<< 56 +
        (dyldChainedPtr64Rebase raw).target.setWidth 64))) := by
  intro raw
  have hlog : (dumpChainedFixups entryEnv oneImport (entryContext raw) 0 oneImport.length).trace =
      (entryContext raw).trace ++ ([] ++ .fixup 0 0x7000#64 raw :: [.store 0x7000#64 0x7040#64]) := by
    decide +kernel
  exact (rebaseValue_iff entryEnv oneImport hlog (by decide)).mpr (by decide)

/-- The tag `0xAB` is lost. -/
theorem entryRun_high8 :
    let raw := 0xAB000000040#64
    let c := entryRun raw oneImport
    (dyldChainedPtr64Rebase raw).bind = 0#1 ∧ (dyldChainedPtr64Rebase raw).high8 = 0xAB#8 ∧
      (dyldChainedPtr64Rebase raw).target = 0x40#36 ∧
      c.trace = [.copy 0x7000#64 120 8, .fixup 0 0x7000#64 raw, .store 0x7000#64 0x7040#64] ∧
      load64 c.mem 0x7000#64 ≠ c.imgAddr + 0xAB00000000000040#64 := by
  decide +kernel

/-- **The formats of the imports table.** In every walk a bind entry takes its name and its addend from
its import in the declared format exactly if the table has the first format, or one of the others and the
word of the table that is read for the import happens to lead to the same string and, where that resolves,
the import has no addend. -/
theorem importsFormat_iff {imp : ChainedImport}
    (hlog : (dumpChainedFixups E f c dataoff datasize).trace =
      c.trace ++ (pre ++ .fixup segment loc raw :: post))
    (hbind : (dyldChainedPtr64Bind raw).bind = 1#1)
    (hcount : (dyldChainedPtr64Bind raw).ordinal.setWidth 32 <
      (chainedFixupsHeader f dataoff).importsCount)
    (himp : declaredImport f dataoff (chainedFixupsHeader f dataoff)
      (dyldChainedPtr64Bind raw).ordinal.toNat = some imp) :
    let hdr := chainedFixupsHeader f dataoff
    let entry := dyldChainedPtr64Bind raw
    let name := importString f dataoff hdr imp
    let imports := dataoff + hdr.importsOffset
    let ordinal := entry.ordinal.toNat
    (chainedImportName f dataoff hdr (entry.ordinal.setWidth 32) = some name ∧
        (E.resolve name ≠ 0#64 → post.head? =
          some (.store loc (E.resolve name + entry.addend.signExtend 64 + imp.addend)))) ↔
      hdr.importsFormat = 1#32 ∨
        hdr.importsFormat = 2#32 ∧ symbolAt f dataoff hdr (strayOffsetAddend f imports ordinal) = name ∧
          (E.resolve name ≠ 0#64 → imp.addend = 0#64) ∨
        hdr.importsFormat = 3#32 ∧ symbolAt f dataoff hdr (strayOffsetAddend64 f imports ordinal) = name ∧
          (E.resolve name ≠ 0#64 → imp.addend = 0#64) := by
  intro hdr entry name imports ordinal
  let first := dyldChainedImport f (imports + 4 * ordinal)
  have hordinal : (entry.ordinal.setWidth 32).toNat = entry.ordinal.toNat :=
    BitVec.toNat_setWidth_of_le (by norm_num)
  have hname : chainedImportName f dataoff hdr (entry.ordinal.setWidth 32) =
      some (importString f dataoff hdr first) := by
    rw [chainedImportName_eq f dataoff hdr hcount, hordinal]
  have hstore : importString f dataoff hdr first = name → E.resolve name ≠ 0#64 →
      (post.head? = some (.store loc (E.resolve name + entry.addend.signExtend 64 + imp.addend)) ↔
        imp.addend = 0#64) := fun hsame hresolve => by
    rw [store_follows_iff E f hlog,
      fixupValue_of_bind E f dataoff _ hbind (hname.trans (congrArg some hsame)) hresolve,
      Option.some_inj, left_eq_add]
    rfl
  -- the left side, with the word that is read as an entry of the first format
  have hread : (some (importString f dataoff hdr first) = some name ∧
      (E.resolve name ≠ 0#64 → post.head? =
        some (.store loc (E.resolve name + entry.addend.signExtend 64 + imp.addend)))) ↔
      importString f dataoff hdr first = name ∧ (E.resolve name ≠ 0#64 → imp.addend = 0#64) := by
    rw [Option.some_inj]
    exact and_congr_right fun hsame => forall_congr' fun hresolve => hstore hsame hresolve
  rw [hname, hread]
  rcases declaredImport_eq_some himp with ⟨hfmt, rfl⟩ | ⟨hfmt, -⟩ | ⟨hfmt, -⟩
  · exact iff_of_true ⟨rfl, fun _ => rfl⟩ (.inl hfmt)
  · have hsame : importString f dataoff hdr first =
        symbolAt f dataoff hdr (strayOffsetAddend f imports ordinal) :=
      congrArg (symbolAt f dataoff hdr) (strayOffsetAddend_eq f imports ordinal)
    rw [hsame]
    refine ⟨fun h => .inr (.inl ⟨hfmt, h⟩), ?_⟩
    rintro (hfirst | ⟨-, h⟩ | ⟨hthird, -⟩)
    · exact absurd (hfmt.symm.trans hfirst) (by decide)
    · exact h
    · exact absurd (hfmt.symm.trans hthird) (by decide)
  · have hsame : importString f dataoff hdr first =
        symbolAt f dataoff hdr (strayOffsetAddend64 f imports ordinal) :=
      congrArg (symbolAt f dataoff hdr) (strayOffsetAddend64_eq f imports ordinal)
    rw [hsame]
    refine ⟨fun h => .inr (.inr ⟨hfmt, h⟩), ?_⟩
    rintro (hfirst | ⟨hsecond, -⟩ | ⟨-, h⟩)
    · exact absurd (hfmt.symm.trans hfirst) (by decide)
    · exact absurd (hfmt.symm.trans hsecond) (by decide)
    · exact h

/-- The first import of a table of the second format, without an addend. -/
theorem importsFormat_iff_first :
    let hdr := chainedFixupsHeader twoImports 0
    chainedImportName twoImports 0 hdr 0#32 = some (lit "_f") := by
  intro hdr
  let raw := 0x8000000000000000#64
  have hlog : (dumpChainedFixups entryEnv twoImports (entryContext raw) 0 twoImports.length).trace =
      (entryContext raw).trace ++ ([] ++ .fixup 0 0x7000#64 raw :: [.store 0x7000#64 0x5000#64]) := by
    decide +kernel
  have himp : declaredImport twoImports 0 hdr (dyldChainedPtr64Bind raw).ordinal.toNat =
      some (dyldChainedImportAddend twoImports 60) := by
    have hfmt : hdr.importsFormat = 2#32 := by decide +kernel
    have hp : 0 + hdr.importsOffset + 8 * (dyldChainedPtr64Bind raw).ordinal.toNat = 60 := by
      decide +kernel
    rw [declaredImport, hfmt, if_neg (by decide), if_pos rfl, hp]
  have himport := (importsFormat_iff entryEnv twoImports hlog (by decide) (by decide +kernel) himp).mpr
    (.inr (.inl ⟨by decide +kernel, by decide +kernel, fun _ => by decide +kernel⟩))
  have hname : importString twoImports 0 hdr (dyldChainedImportAddend twoImports 60) = lit "_f" := by
    decide +kernel
  have hordinal : (dyldChainedPtr64Bind raw).ordinal.setWidth 32 = 0#32 := by decide
  rw [← hname, ← hordinal]
  exact himport.1

/-- The second import of that table is bound to the first one's symbol. -/
theorem entryRun_secondImport :
    let raw := 0x8000000000000001#64
    let hdr := chainedFixupsHeader twoImports 0
    let c := entryRun raw twoImports
    (dyldChainedPtr64Bind raw).bind = 1#1 ∧ hdr.importsFormat = 2#32 ∧ hdr.importsCount = 2#32 ∧
      (declaredImport twoImports 0 hdr 1).map (importString twoImports 0 hdr) = some (lit "_g") ∧
      chainedImportName twoImports 0 hdr 1#32 ≠ some (lit "_g") ∧
      load64 c.mem 0x7000#64 = entryEnv.resolve (lit "_f") := by
  decide +kernel

end Stored

end Maloader
