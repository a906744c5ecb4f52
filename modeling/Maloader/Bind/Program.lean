import Maloader.Bind.Model

/-!
# Bind programs

The bind opcodes as syntax, their encodings, and the table of records they stand for. A program is a
list of opcodes; an operand may be written in any encoding of at most ten bytes.

* `BindOp`, `BindOp.encode`, `encodeProgram`: syntax and bytes.
* `BindRegs`, `BindOp.regs`, `BindOp.rows`, `programRows`, `programRecords`: the table that an opcode
  list means.
* `readUleb128_leb`: reading an operand gives its value and stops behind it.
* `bindStep_encode`: one opcode; **`bindLoop_encode`**: a whole program.
-/

namespace Maloader

open ByteLib

/-! ## Syntax and encoding -/

/-- A symbol name without NUL bytes. -/
structure SymbolName where
  name : CString
  noNul : 0#8 ∉ name

/-- A bind opcode with its immediate and its operands as encoded. -/
inductive BindOp
  | done (imm : BitVec 4)
  | setDylibOrdinalImm (imm : BitVec 4)
  | setDylibOrdinalUleb (imm : BitVec 4) (ordinal : Uleb)
  | setDylibSpecialImm (imm : BitVec 4)
  | setSymbolTrailingFlagsImm (imm : BitVec 4) (symbol : SymbolName)
  | setTypeImm (imm : BitVec 4)
  | setAddendSleb (imm : BitVec 4) (addend : LebBytes)
  | setSegmentAndOffsetUleb (imm : BitVec 4) (offset : Uleb)
  | addAddrUleb (imm : BitVec 4) (n : Uleb)
  | doBind (imm : BitVec 4)
  | doBindAddAddrUleb (imm : BitVec 4) (n : Uleb)
  | doBindAddAddrImmScaled (imm : BitVec 4)
  | doBindUlebTimesSkippingUleb (imm : BitVec 4) (count skip : Uleb)

/-- The high nibble of an opcode byte. -/
def BindOpcode.code : BindOpcode → Byte
  | .done => 0x00#8
  | .setDylibOrdinalImm => 0x10#8
  | .setDylibOrdinalUleb => 0x20#8
  | .setDylibSpecialImm => 0x30#8
  | .setSymbolTrailingFlagsImm => 0x40#8
  | .setTypeImm => 0x50#8
  | .setAddendSleb => 0x60#8
  | .setSegmentAndOffsetUleb => 0x70#8
  | .addAddrUleb => 0x80#8
  | .doBind => 0x90#8
  | .doBindAddAddrUleb => 0xA0#8
  | .doBindAddAddrImmScaled => 0xB0#8
  | .doBindUlebTimesSkippingUleb => 0xC0#8
  | .unknown => 0xD0#8

/-- An opcode byte. -/
def opByte (op : BindOpcode) (imm : BitVec 4) : Byte := op.code ||| imm.zeroExtend 8

/-- The bytes of an opcode and its operands. -/
def BindOp.encode : BindOp → List Byte
  | .done imm => [opByte .done imm]
  | .setDylibOrdinalImm imm => [opByte .setDylibOrdinalImm imm]
  | .setDylibOrdinalUleb imm u => opByte .setDylibOrdinalUleb imm :: u.bytes
  | .setDylibSpecialImm imm => [opByte .setDylibSpecialImm imm]
  | .setSymbolTrailingFlagsImm imm sym => opByte .setSymbolTrailingFlagsImm imm :: (sym.name ++ [0#8])
  | .setTypeImm imm => [opByte .setTypeImm imm]
  | .setAddendSleb imm a => opByte .setAddendSleb imm :: a.bytes
  | .setSegmentAndOffsetUleb imm u => opByte .setSegmentAndOffsetUleb imm :: u.bytes
  | .addAddrUleb imm u => opByte .addAddrUleb imm :: u.bytes
  | .doBind imm => [opByte .doBind imm]
  | .doBindAddAddrUleb imm u => opByte .doBindAddAddrUleb imm :: u.bytes
  | .doBindAddAddrImmScaled imm => [opByte .doBindAddAddrImmScaled imm]
  | .doBindUlebTimesSkippingUleb imm count skip =>
    opByte .doBindUlebTimesSkippingUleb imm :: (count.bytes ++ skip.bytes)

/-- The bytes of a program. -/
def encodeProgram (prog : List BindOp) : List Byte := prog.flatMap BindOp.encode

/-! ## The table -/

/-- The columns of the bind table that carry over from row to row. -/
structure BindRegs where
  symbol : Option CString
  segment : ℤ
  offset : BitVec 64

/-- No symbol, segment `-1`, offset `0`. -/
def BindRegs.init : BindRegs := ⟨none, -1, 0#64⟩

/-- The place `offset` bytes into the segment with index `i`: `NULL` unless that segment is recorded
and mapped. -/
def SegmentTable.locate (t : SegmentTable) (i : ℤ) (offset : BitVec 64) : Addr :=
  ((t.recs[i.toNat]?).filter fun seg => 0 ≤ i ∧ seg.mappedAddr ≠ 0#64).elim 0#64 (·.mappedAddr + offset)

/-- The record of a row with these columns. -/
def BindRegs.record (t : SegmentTable) (r : BindRegs) : BindInfo :=
  ⟨r.symbol, t.locate r.segment r.offset⟩

/-- The columns after an opcode. -/
def BindOp.regs (r : BindRegs) : BindOp → BindRegs
  | .setSymbolTrailingFlagsImm _ sym => { r with symbol := some sym.name }
  | .setSegmentAndOffsetUleb imm u => { r with segment := imm.toNat, offset := u.val }
  | .addAddrUleb _ u => { r with offset := r.offset + u.val }
  | .doBind _ => { r with offset := r.offset + 8#64 }
  | .doBindAddAddrUleb _ u => { r with offset := r.offset + (8#64 + u.val) }
  | .doBindAddAddrImmScaled imm => { r with offset := r.offset + (8#64 + imm.zeroExtend 64 * 8#64) }
  | .doBindUlebTimesSkippingUleb _ count skip =>
    { r with offset := r.offset + count.val * (8#64 + skip.val) }
  | _ => r

/-- The rows an opcode adds. -/
def BindOp.rows (r : BindRegs) : BindOp → List BindRegs
  | .doBind _ | .doBindAddAddrUleb _ _ | .doBindAddAddrImmScaled _ => [r]
  | .doBindUlebTimesSkippingUleb _ count skip =>
    (List.range count.val.toNat).map fun i =>
      { r with offset := r.offset + BitVec.ofNat 64 i * (8#64 + skip.val) }
  | _ => []

/-- The rows a program adds, from columns `r` on. -/
def programRows (r : BindRegs) : List BindOp → List BindRegs
  | [] => []
  | o :: os => o.rows r ++ programRows (o.regs r) os

/-- The records of a program, from columns `r` on. -/
def programRecords (t : SegmentTable) (r : BindRegs) (prog : List BindOp) : List BindInfo :=
  (programRows r prog).map (BindRegs.record t)

/-- The columns after a program. -/
def programRegs (r : BindRegs) (prog : List BindOp) : BindRegs := prog.foldl BindOp.regs r

/-! ## Reading an operand -/

variable {E : Env} {f : File}

theorem readUleb128Loop_last {b : Byte} (hb : ¬ continues b) {n p : ℕ} (hat : byteAt f p = b)
    (r : BitVec 64) (bit : ℕ) : readUleb128Loop E f (n + 1) p r bit =
      (r ||| shl64 E ((b &&& 0x7f#8).zeroExtend 64) bit, p + 1) := by
  subst hat
  exact if_pos (not_not.mp hb)

theorem readUleb128Loop_more {b : Byte} (hb : continues b) {n p : ℕ} (hat : byteAt f p = b)
    (r : BitVec 64) (bit : ℕ) : readUleb128Loop E f (n + 1) p r bit =
      readUleb128Loop E f n (p + 1) (r ||| shl64 E ((b &&& 0x7f#8).zeroExtend 64) bit) (bit + 7) := by
  subst hat
  exact if_neg hb

theorem readUleb128Loop_snd {bs : List Byte} (hbs : IsLeb bs) : ∀ {n p : ℕ} (r : BitVec 64)
    (bit : ℕ), HasAt f p bs → bs.length ≤ n → (readUleb128Loop E f n p r bit).2 = p + bs.length := by
  refine leb_induction (P := fun bs => ∀ {n p : ℕ} (r : BitVec 64) (bit : ℕ), HasAt f p bs →
    bs.length ≤ n → (readUleb128Loop E f n p r bit).2 = p + bs.length) ?_ ?_ bs hbs
  · intro b hb n p r bit hat hn
    obtain ⟨n, rfl⟩ : ∃ k, n = k + 1 := ⟨n - 1, by simp at hn; omega⟩
    rw [readUleb128Loop_last hb (hasAt_cons hat).1, List.length_singleton]
  · intro b bs hb _ ih n p r bit hat hn
    obtain ⟨n, rfl⟩ : ∃ k, n = k + 1 := ⟨n - 1, by simp at hn; omega⟩
    rw [readUleb128Loop_more hb (hasAt_cons hat).1, ih _ _ (hasAt_cons hat).2 (by simpa using hn),
      List.length_cons]
    omega

/-- The accumulator holds the bits read so far, below `bit`; ten bytes shift by 63 at most. -/
theorem readUleb128Loop_fst {bs : List Byte} (hbs : IsLeb bs) : ∀ {n p : ℕ} (r : BitVec 64)
    (bit : ℕ), HasAt f p bs → bs.length ≤ n → bit + 7 * bs.length ≤ 70 → r.toNat < 2 ^ bit →
    r.toNat + lebVal bs * 2 ^ bit < 2 ^ 64 →
    ((readUleb128Loop E f n p r bit).1).toNat = r.toNat + lebVal bs * 2 ^ bit := by
  refine leb_induction (P := fun bs => ∀ {n p : ℕ} (r : BitVec 64) (bit : ℕ), HasAt f p bs →
    bs.length ≤ n → bit + 7 * bs.length ≤ 70 → r.toNat < 2 ^ bit →
    r.toNat + lebVal bs * 2 ^ bit < 2 ^ 64 →
    ((readUleb128Loop E f n p r bit).1).toNat = r.toNat + lebVal bs * 2 ^ bit) ?_ ?_ bs hbs
  · intro b hb n p r bit hat hn hbit hr hfit
    obtain ⟨n, rfl⟩ : ∃ k, n = k + 1 := ⟨n - 1, by simp at hn; omega⟩
    rw [List.length_singleton] at hbit
    simp only [lebVal, Nat.mul_zero, Nat.add_zero] at hfit ⊢
    rw [readUleb128Loop_last hb (hasAt_cons hat).1, shl64, if_pos (by omega)]
    exact or_shiftLeft_eq hr hfit
  · intro b bs hb _ ih n p r bit hat hn hbit hr hfit
    obtain ⟨n, rfl⟩ : ∃ k, n = k + 1 := ⟨n - 1, by simp at hn; omega⟩
    rw [List.length_cons] at hbit hn
    have hpow : 2 ^ (bit + 7) = 128 * 2 ^ bit := by rw [pow_add]; ring
    have hval : r.toNat + lebVal (b :: bs) * 2 ^ bit =
        r.toNat + payload b * 2 ^ bit + lebVal bs * 2 ^ (bit + 7) := by
      rw [hpow, lebVal]; ring
    rw [hval] at hfit ⊢
    have hfit' : r.toNat + payload b * 2 ^ bit < 2 ^ 64 := Nat.lt_of_le_of_lt (Nat.le_add_right _ _) hfit
    have hacc : (r ||| shl64 E ((b &&& 0x7f#8).zeroExtend 64) bit).toNat =
        r.toNat + payload b * 2 ^ bit := by
      rw [shl64, if_pos (by omega)]
      exact or_shiftLeft_eq hr hfit'
    have hlt : r.toNat + payload b * 2 ^ bit < 2 ^ (bit + 7) := by
      have := Nat.mul_le_mul_right (2 ^ bit) (Nat.le_sub_one_of_lt (payload_lt b))
      rw [hpow]
      omega
    rw [readUleb128Loop_more hb (hasAt_cons hat).1, ih _ _ (hasAt_cons hat).2 (by omega) (by omega)
      (by rw [hacc]; exact hlt) (by rw [hacc]; exact hfit), hacc]

/-- **Reading an operand gives its value and stops behind it.** -/
theorem readUleb128_leb (u : Uleb) {p stop : ℕ} (hat : HasAt f p u.bytes)
    (hstop : p + u.bytes.length ≤ stop) :
    readUleb128 E f p stop = (u.val, p + u.bytes.length) := by
  have hlen := u.length_le
  have hval := u.val_lt
  refine Prod.ext (BitVec.eq_of_toNat_eq ?_) (readUleb128Loop_snd u.isLeb _ _ hat (by omega))
  have hfst := readUleb128Loop_fst (E := E) u.isLeb 0#64 0 hat (n := stop - p) (by omega) (by omega)
    (by simp) (by simpa using hval)
  have hmod : lebVal u.bytes = lebVal u.bytes % 2 ^ 64 := (Nat.mod_eq_of_lt hval).symm
  rw [readUleb128, hfst, Uleb.val]
  simpa using hmod

theorem readUleb128_snd {bs : List Byte} (hbs : IsLeb bs) {p stop : ℕ} (hat : HasAt f p bs)
    (hstop : p + bs.length ≤ stop) : (readUleb128 E f p stop).2 = p + bs.length :=
  readUleb128Loop_snd hbs _ _ hat (by omega)

/-! ## One opcode -/

theorem bindOpcode_opByte (op : BindOpcode) (imm : BitVec 4) :
    bindOpcode (opByte op imm &&& 0xF0#8) = op := by
  revert imm
  cases op <;> decide

theorem opByte_and_imm (op : BindOpcode) (imm : BitVec 4) :
    opByte op imm &&& 0x0F#8 = imm.zeroExtend 8 := by
  revert imm
  cases op <;> decide

theorem toNat_zeroExtend_imm (imm : BitVec 4) : (imm.zeroExtend 8).toNat = imm.toNat := by
  revert imm
  decide

theorem zeroExtend_zeroExtend_imm (imm : BitVec 4) :
    (imm.zeroExtend 8).zeroExtend 64 = imm.zeroExtend 64 := by
  revert imm
  decide

/-- The parser's locals with the columns `r`. -/
def BindRegs.state (r : BindRegs) (p : ℕ) (l : List BindInfo) : BindState :=
  ⟨p, r.symbol, r.segment, r.offset, l⟩

theorem bindAddressForSegmentOffset_eq_locate (t : SegmentTable) (i : ℤ) (off : BitVec 64) :
    bindAddressForSegmentOffset t i off = t.locate i off := by
  unfold bindAddressForSegmentOffset SegmentTable.locate
  by_cases hi : i < 0
  · rw [if_pos hi]
    cases t.recs[i.toNat]? with
    | none => rfl
    | some seg => simp [Option.filter, show ¬ 0 ≤ i by omega]
  · rw [if_neg hi]
    cases t.recs[i.toNat]? with
    | none => rfl
    | some seg => by_cases hm : seg.mappedAddr = 0#64 <;> simp [Option.filter, hm, show 0 ≤ i by omega]

variable (t : SegmentTable)

theorem emit_state (r : BindRegs) (p : ℕ) (l : List BindInfo) (n : BitVec 64) :
    (r.state p l).emit t n = ({ r with offset := r.offset + n } : BindRegs).state p (l ++ [r.record t]) := by
  simp only [BindState.emit, BindRegs.state, appendBindInfo, BindRegs.record,
    bindAddressForSegmentOffset_eq_locate]

/-- **The counted loop writes the rows at equal distances.** -/
theorem bindTimes_state (skip : BitVec 64) (n : ℕ) (r : BindRegs) (p : ℕ) (l : List BindInfo) :
    bindTimes t skip n (r.state p l) =
      ({ r with offset := r.offset + BitVec.ofNat 64 n * (8#64 + skip) } : BindRegs).state p
        (l ++ (List.range n).map fun i =>
          BindRegs.record t { r with offset := r.offset + BitVec.ofNat 64 i * (8#64 + skip) }) := by
  induction n generalizing r l with
  | zero => simp [bindTimes, BindRegs.state]
  | succ n ih =>
    have hoff : ∀ k : ℕ, r.offset + (8#64 + skip) + BitVec.ofNat 64 k * (8#64 + skip) =
        r.offset + BitVec.ofNat 64 (k + 1) * (8#64 + skip) := by
      intro k
      rw [show BitVec.ofNat 64 (k + 1) = BitVec.ofNat 64 k + 1 from BitVec.ofNat_add k 1]
      ring
    rw [bindTimes, emit_state, pointerSize, ih, List.append_assoc, List.range_succ_eq_map,
      List.map_cons, List.map_map]
    simp only [hoff]
    simp [BindRegs.record, Function.comp_def]

variable {stop : ℕ}

theorem bindOpcodeStep_encode (o : BindOp) (r : BindRegs) (p : ℕ) (l : List BindInfo)
    {op : BindOpcode} {imm : BitVec 4} {bs : List Byte} (he : o.encode = opByte op imm :: bs)
    (hat : HasAt f p bs) (hstop : p + bs.length ≤ stop) :
    bindOpcodeStep E f t stop op (imm.zeroExtend 8) (r.state p l) =
      (o.regs r).state (p + bs.length) (l ++ (o.rows r).map (BindRegs.record t)) := by
  have hop : ∀ {op' : BindOpcode} {imm' : BitVec 4} {bs' : List Byte},
      opByte op' imm' :: bs' = opByte op imm :: bs → op' = op ∧ imm' = imm ∧ bs' = bs := by
    intro op' imm' bs' h
    rw [List.cons.injEq] at h
    have h1 := congrArg (fun b => bindOpcode (b &&& 0xF0#8)) h.1
    have h2 := congrArg (fun b => (b &&& 0x0F#8).toNat) h.1
    simp only [bindOpcode_opByte, opByte_and_imm, toNat_zeroExtend_imm] at h1 h2
    exact ⟨h1, BitVec.eq_of_toNat_eq h2, h.2⟩
  cases o with
  | done | setDylibOrdinalImm | setDylibSpecialImm | setTypeImm =>
    obtain ⟨rfl, rfl, rfl⟩ := hop he
    simp only [bindOpcodeStep, BindOp.regs, BindOp.rows, List.map_nil, List.append_nil]
    rfl
  | setDylibOrdinalUleb _ u =>
    obtain ⟨rfl, rfl, rfl⟩ := hop he
    simp only [bindOpcodeStep, BindRegs.state, readUleb128_leb u hat hstop, BindOp.regs,
      BindOp.rows, List.map_nil, List.append_nil]
  | setAddendSleb _ a =>
    obtain ⟨rfl, rfl, rfl⟩ := hop he
    simp only [bindOpcodeStep, BindRegs.state, readUleb128_snd a.isLeb hat hstop, BindOp.regs,
      BindOp.rows, List.map_nil, List.append_nil]
  | setSymbolTrailingFlagsImm _ sym =>
    obtain ⟨rfl, rfl, rfl⟩ := hop he
    simp only [bindOpcodeStep, BindRegs.state, cstrAt, cstr_of_hasAt sym.noNul hat, BindOp.regs,
      BindOp.rows, List.map_nil, List.append_nil, List.length_append, List.length_singleton]
  | setSegmentAndOffsetUleb _ u =>
    obtain ⟨rfl, rfl, rfl⟩ := hop he
    simp only [bindOpcodeStep, BindRegs.state, readUleb128_leb u hat hstop, BindOp.regs,
      BindOp.rows, List.map_nil, List.append_nil, toNat_zeroExtend_imm]
  | addAddrUleb _ u =>
    obtain ⟨rfl, rfl, rfl⟩ := hop he
    simp only [bindOpcodeStep, BindRegs.state, readUleb128_leb u hat hstop, BindOp.regs,
      BindOp.rows, List.map_nil, List.append_nil]
  | doBind =>
    obtain ⟨rfl, rfl, rfl⟩ := hop he
    exact emit_state t r p l _
  | doBindAddAddrUleb _ u =>
    obtain ⟨rfl, rfl, rfl⟩ := hop he
    have hread : readUleb128 E f (r.state p l).p stop = _ := readUleb128_leb u hat hstop
    rw [bindOpcodeStep, hread]
    exact emit_state t r _ l _
  | doBindAddAddrImmScaled =>
    obtain ⟨rfl, rfl, rfl⟩ := hop he
    rw [bindOpcodeStep, zeroExtend_zeroExtend_imm]
    exact emit_state t r p l _
  | doBindUlebTimesSkippingUleb _ count skip =>
    obtain ⟨rfl, rfl, rfl⟩ := hop he
    rw [List.length_append] at hstop ⊢
    have hp : (r.state p l).p = p := rfl
    have hcount := readUleb128_leb (E := E) count hat.left
      (show p + count.bytes.length ≤ stop by omega)
    have hskip := readUleb128_leb (E := E) skip hat.right
      (show p + count.bytes.length + skip.bytes.length ≤ stop by omega)
    simp only [bindOpcodeStep, hp, hcount, hskip, ← Nat.add_assoc]
    have htimes := bindTimes_state t skip.val count.val.toNat r
      (p + count.bytes.length + skip.bytes.length) l
    rw [BitVec.ofNat_toNat, BitVec.setWidth_eq] at htimes
    rw [BindOp.rows, List.map_map]
    exact htimes

theorem exists_encode_eq_cons (o : BindOp) :
    ∃ op imm bs, o.encode = opByte op imm :: bs := by
  cases o <;> exact ⟨_, _, _, rfl⟩

/-- **One turn of the loop on an encoded opcode.** -/
theorem bindStep_encode (o : BindOp) (r : BindRegs) (p : ℕ) (l : List BindInfo)
    (hat : HasAt f p o.encode) (hstop : p + o.encode.length ≤ stop) :
    bindStep E f t stop (r.state p l) =
      (o.regs r).state (p + o.encode.length) (l ++ (o.rows r).map (BindRegs.record t)) := by
  obtain ⟨op, imm, bs, he⟩ := exists_encode_eq_cons o
  rw [he] at hat hstop ⊢
  rw [List.length_cons] at hstop ⊢
  have hbyte : byteAt f (r.state p l).p = opByte op imm := (hasAt_cons hat).1
  rw [bindStep, hbyte, bindOpcode_opByte, opByte_and_imm, Nat.add_comm bs.length 1, ← Nat.add_assoc]
  exact bindOpcodeStep_encode t o r (p + 1) l he (hasAt_cons hat).2 (by omega)

/-! ## A whole program -/

theorem length_encode_pos (o : BindOp) : 0 < o.encode.length := by
  obtain ⟨op, imm, bs, he⟩ := exists_encode_eq_cons o
  rw [he, List.length_cons]
  exact Nat.succ_pos _

/-- **The loop on an encoded program** consumes it and appends its table. -/
theorem bindLoop_encode (prog : List BindOp) (r : BindRegs) (p n : ℕ) (l : List BindInfo)
    (hat : HasAt f p (encodeProgram prog)) (hstop : p + (encodeProgram prog).length = stop)
    (hn : (encodeProgram prog).length ≤ n) :
    bindLoop E f t stop n (r.state p l) =
      (programRegs r prog).state stop (l ++ programRecords t r prog) := by
  induction prog generalizing r p n l with
  | nil =>
    rw [bindLoop_of_le E f t stop n _ (le_of_eq hstop.symm)]
    simp only [programRegs, programRecords, programRows, List.foldl_nil, List.map_nil,
      List.append_nil, ← hstop]
    rfl
  | cons o os ih =>
    simp only [encodeProgram, List.flatMap_cons, List.length_append] at hat hstop hn
    have hpos := length_encode_pos o
    obtain ⟨n, rfl⟩ : ∃ k, n = k + 1 := ⟨n - 1, by omega⟩
    have hlt : (r.state p l).p < stop := by change p < stop; omega
    rw [bindLoop, if_pos hlt, bindStep_encode t o r p l hat.left (by omega),
      ih (o.regs r) (p + o.encode.length) n _ hat.right (by simp only [encodeProgram]; omega)
        (by simp only [encodeProgram]; omega), List.append_assoc]
    simp only [programRecords, programRows, List.map_append]
    rfl

theorem bindRecords_encodeProgram (E : Env) {f : File} {prog : List BindOp} {start : ℕ}
    (hat : HasAt f start (encodeProgram prog)) (hstop : start + (encodeProgram prog).length = stop) :
    bindRecords E f t start stop = programRecords t BindRegs.init prog := by
  have h := bindLoop_encode (E := E) t prog BindRegs.init start (stop - start) [] hat hstop (by omega)
  exact congrArg BindState.bList h

theorem bindFinal_encodeProgram (E : Env) {f : File} {prog : List BindOp} {start : ℕ}
    (l : List BindInfo) (hat : HasAt f start (encodeProgram prog)) :
    bindFinal E f t l start (start + (encodeProgram prog).length) =
      (programRegs BindRegs.init prog).state (start + (encodeProgram prog).length)
        (l ++ programRecords t BindRegs.init prog) :=
  bindLoop_encode t prog BindRegs.init start _ l hat rfl (by omega)

/-- **Decoding an encoded bind program**, from any context: the cursor ends at the end of the
stream, and the bind list has grown by the rows of the program's table, in order. -/
theorem bindListRetriever_encodeProgram (E : Env) (f : File) (c : MachContext)
    (prog : List BindOp) (start stop : ℕ) (hat : HasAt f start (encodeProgram prog))
    (hstop : stop = start + (encodeProgram prog).length) :
    bindListRetriever E f c start stop =
        (0, { c with bList := c.bList ++ programRecords c.segments BindRegs.init prog }) ∧
      bindFinal E f c.segments c.bList start stop =
        (programRegs BindRegs.init prog).state stop
          (c.bList ++ programRecords c.segments BindRegs.init prog) := by
  have hfinal : bindFinal E f c.segments c.bList start stop =
      (programRegs BindRegs.init prog).state stop
        (c.bList ++ programRecords c.segments BindRegs.init prog) :=
    bindLoop_encode c.segments prog BindRegs.init start (stop - start) c.bList hat hstop.symm
      (by omega)
  refine ⟨?_, hfinal⟩
  rw [bindListRetriever, hfinal]
  rfl

/-- `_f` bound at `0x5008` and, twelve bytes skipped, at `0x501c`; the offset is written in two
bytes. -/
theorem bindListRetriever_encodeProgram_times :
    let prog := [BindOp.setSymbolTrailingFlagsImm 0 ⟨lit "_f", by decide⟩,
      .setSegmentAndOffsetUleb 0 ⟨[0x88, 0x00], by decide, by decide, by decide⟩,
      .doBindUlebTimesSkippingUleb 0 ⟨[0x02], by decide, by decide, by decide⟩
        ⟨[0x0c], by decide, by decide, by decide⟩]
    let c := { MachContext.zero fun _ => 0 with
      segments := ⟨[⟨[], 0x1000#64, 0x1000#64, 0x5000#64⟩], by decide⟩ }
    (bindListRetriever Env.plain (encodeProgram prog) c 0 10).2.bList =
      [⟨some (lit "_f"), 0x5008#64⟩, ⟨some (lit "_f"), 0x501c#64⟩] := by
  intro prog c
  rw [(bindListRetriever_encodeProgram Env.plain (encodeProgram prog) c prog 0 10 (by decide)
    (by decide)).1]
  decide

end Maloader
