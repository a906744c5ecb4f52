import Maloader.Lib.Leb128
import Maloader.Context

/-!
# The bind-opcode parser

`bind_list_retriever` and what it calls, over the file bytes and a cursor.

* `readUleb128`, `bindAddressForSegmentOffset`, `appendBindInfo`;
* `bindOpcodeStep`, `bindStep`: one turn of the `while` loop; `bindLoop`, `bindListRetriever`;
* `lt_bindStep_p`: every turn moves the cursor on;
* `bindStep_withList`, **`bindListRetriever_eq`**: a call appends to the bind list, and what it
  appends does not depend on the list.
-/

namespace Maloader

open ByteLib

/-! ## Operands and addresses -/

/-- The shift of the 64-bit accumulator. -/
def shl64 (E : Env) (x : BitVec 64) (bit : ℕ) : BitVec 64 :=
  if bit < 64 then x <<< bit else E.overshift x bit

/-- The loop of `read_uleb128` with `n` bytes of the range left. -/
def readUleb128Loop (E : Env) (f : File) : ℕ → ℕ → BitVec 64 → ℕ → BitVec 64 × ℕ
  | 0, p, result, _ => (result, p)
  | n + 1, p, result, bit =>
    let byte := byteAt f p
    let result := result ||| shl64 E ((byte &&& 0x7f#8).zeroExtend 64) bit
    if byte &&& 0x80#8 = 0#8 then (result, p + 1) else readUleb128Loop E f n (p + 1) result (bit + 7)

/-- The value read and the cursor behind it. -/
def readUleb128 (E : Env) (f : File) (p stop : ℕ) : BitVec 64 × ℕ :=
  readUleb128Loop E f (stop - p) p 0#64 0

/-- The place of an offset in a segment; `NULL` for one that is unknown or not mapped. -/
def bindAddressForSegmentOffset (t : SegmentTable) (segmentIndex : ℤ) (offset : BitVec 64) : Addr :=
  if segmentIndex < 0 then 0#64
  else
    match t.recs[segmentIndex.toNat]? with
    | none => 0#64
    | some seg => if seg.mappedAddr = 0#64 then 0#64 else seg.mappedAddr + offset

/-- A record at the end of the bind list. -/
def appendBindInfo (l : List BindInfo) (funcName : Option CString) (address : Addr) :
    List BindInfo := l ++ [⟨funcName, address⟩]

/-! ## One opcode -/

/-- The opcodes `bind_list_retriever` tells apart. -/
inductive BindOpcode
  | done | setDylibOrdinalImm | setDylibOrdinalUleb | setDylibSpecialImm
  | setSymbolTrailingFlagsImm | setTypeImm | setAddendSleb | setSegmentAndOffsetUleb | addAddrUleb
  | doBind | doBindAddAddrUleb | doBindAddAddrImmScaled | doBindUlebTimesSkippingUleb | unknown
  deriving DecidableEq, Repr

/-- The `switch` on `byte & BIND_OPCODE_MASK`. -/
def bindOpcode (opcode : Byte) : BindOpcode :=
  if opcode = 0x00#8 then .done
  else if opcode = 0x10#8 then .setDylibOrdinalImm
  else if opcode = 0x20#8 then .setDylibOrdinalUleb
  else if opcode = 0x30#8 then .setDylibSpecialImm
  else if opcode = 0x40#8 then .setSymbolTrailingFlagsImm
  else if opcode = 0x50#8 then .setTypeImm
  else if opcode = 0x60#8 then .setAddendSleb
  else if opcode = 0x70#8 then .setSegmentAndOffsetUleb
  else if opcode = 0x80#8 then .addAddrUleb
  else if opcode = 0x90#8 then .doBind
  else if opcode = 0xA0#8 then .doBindAddAddrUleb
  else if opcode = 0xB0#8 then .doBindAddAddrImmScaled
  else if opcode = 0xC0#8 then .doBindUlebTimesSkippingUleb
  else .unknown

/-- The locals of `bind_list_retriever` and the list it grows. -/
structure BindState where
  p : ℕ
  symbolName : Option CString
  segmentIndex : ℤ
  segmentOffset : BitVec 64
  bList : List BindInfo

/-- The variables in front of the loop. -/
def BindState.init (start : ℕ) (l : List BindInfo) : BindState where
  p := start
  symbolName := none
  segmentIndex := -1
  segmentOffset := 0#64
  bList := l

/-- `sizeof(ptrval)`. -/
def pointerSize : BitVec 64 := 8#64

/-- Record the current symbol at the current location and move on by `n`. -/
def BindState.emit (t : SegmentTable) (s : BindState) (n : BitVec 64) : BindState :=
  { s with
    bList := appendBindInfo s.bList s.symbolName
      (bindAddressForSegmentOffset t s.segmentIndex s.segmentOffset)
    segmentOffset := s.segmentOffset + n }

/-- The counted loop of `DO_BIND_ULEB_TIMES_SKIPPING_ULEB`. -/
def bindTimes (t : SegmentTable) (skip : BitVec 64) : ℕ → BindState → BindState
  | 0, s => s
  | n + 1, s => bindTimes t skip n (s.emit t (pointerSize + skip))

/-- The `switch`, with the cursor behind the opcode byte. -/
def bindOpcodeStep (E : Env) (f : File) (t : SegmentTable) (stop : ℕ) (op : BindOpcode)
    (immediate : Byte) (s : BindState) : BindState :=
  match op with
  | .done | .setDylibOrdinalImm | .setDylibSpecialImm | .setTypeImm | .unknown => s
  | .setDylibOrdinalUleb | .setAddendSleb => { s with p := (readUleb128 E f s.p stop).2 }
  | .setSymbolTrailingFlagsImm =>
    { s with
      p := s.p + ((cstrAt f s.p).length + 1)
      symbolName := some (cstrAt f s.p) }
  | .setSegmentAndOffsetUleb =>
    let r := readUleb128 E f s.p stop
    { s with p := r.2, segmentIndex := immediate.toNat, segmentOffset := r.1 }
  | .addAddrUleb =>
    let r := readUleb128 E f s.p stop
    { s with p := r.2, segmentOffset := s.segmentOffset + r.1 }
  | .doBind => s.emit t pointerSize
  | .doBindAddAddrUleb =>
    let r := readUleb128 E f s.p stop
    { s with p := r.2 }.emit t (pointerSize + r.1)
  | .doBindAddAddrImmScaled => s.emit t (pointerSize + immediate.zeroExtend 64 * pointerSize)
  | .doBindUlebTimesSkippingUleb =>
    let count := readUleb128 E f s.p stop
    let skip := readUleb128 E f count.2 stop
    bindTimes t skip.1 count.1.toNat { s with p := skip.2 }

/-- One turn of the `while` loop. -/
def bindStep (E : Env) (f : File) (t : SegmentTable) (stop : ℕ) (s : BindState) : BindState :=
  let byte := byteAt f s.p
  bindOpcodeStep E f t stop (bindOpcode (byte &&& 0xF0#8)) (byte &&& 0x0F#8) { s with p := s.p + 1 }

/-! ## The loop -/

/-- `n` turns of the loop at most; `bindListRetriever` allows as many as there are bytes. -/
def bindLoop (E : Env) (f : File) (t : SegmentTable) (stop : ℕ) : ℕ → BindState → BindState
  | 0, s => s
  | n + 1, s => if s.p < stop then bindLoop E f t stop n (bindStep E f t stop s) else s

/-- The state in which the loop over `[start, stop)` ends. -/
def bindFinal (E : Env) (f : File) (t : SegmentTable) (l : List BindInfo) (start stop : ℕ) :
    BindState := bindLoop E f t stop (stop - start) (BindState.init start l)

/-- The records of the stream at `[start, stop)` are appended to the bind list. -/
def bindListRetriever (E : Env) (f : File) (c : MachContext) (start stop : ℕ) :
    ℤ × MachContext :=
  (0, { c with bList := (bindFinal E f c.segments c.bList start stop).bList })

/-! ## The cursor -/

variable (E : Env) (f : File) (t : SegmentTable) (stop : ℕ)

theorem le_readUleb128Loop (n p : ℕ) (r : BitVec 64) (bit : ℕ) :
    p ≤ (readUleb128Loop E f n p r bit).2 := by
  induction n generalizing p r bit with
  | zero => exact le_rfl
  | succ n ih =>
    simp only [readUleb128Loop]
    split_ifs
    · exact Nat.le_succ p
    · exact (Nat.le_succ p).trans (ih _ _ _)

theorem le_readUleb128 (p : ℕ) : p ≤ (readUleb128 E f p stop).2 := le_readUleb128Loop E f _ _ _ _

theorem bindTimes_p (skip : BitVec 64) (n : ℕ) (s : BindState) : (bindTimes t skip n s).p = s.p := by
  induction n generalizing s with
  | zero => rfl
  | succ n ih => exact ih _

theorem le_bindOpcodeStep_p (op : BindOpcode) (imm : Byte) (s : BindState) :
    s.p ≤ (bindOpcodeStep E f t stop op imm s).p := by
  have h1 := le_readUleb128 E f stop s.p
  have h2 := le_readUleb128 E f stop (readUleb128 E f s.p stop).2
  cases op <;> simp only [bindOpcodeStep, BindState.emit, bindTimes_p] <;> omega

theorem lt_bindStep_p (s : BindState) : s.p < (bindStep E f t stop s).p :=
  le_bindOpcodeStep_p E f t stop _ _ { s with p := s.p + 1 }

theorem bindLoop_of_le (n : ℕ) (s : BindState) (h : stop ≤ s.p) : bindLoop E f t stop n s = s := by
  cases n with
  | zero => rfl
  | succ n => rw [bindLoop, if_neg (by omega)]

theorem bindLoop_add (n k : ℕ) (s : BindState) (hn : stop ≤ s.p + n) :
    bindLoop E f t stop (n + k) s = bindLoop E f t stop n s := by
  induction n generalizing s with
  | zero => rw [bindLoop_of_le E f t stop _ s hn, bindLoop_of_le E f t stop _ s hn]
  | succ n ih =>
    rw [show n + 1 + k = n + k + 1 by omega, bindLoop, bindLoop]
    split_ifs with h
    · have := lt_bindStep_p E f t stop s
      exact ih _ (by omega)
    · rfl

/-! ## The list -/

/-- The same locals over a longer list. -/
def BindState.withList (l : List BindInfo) (s : BindState) : BindState :=
  { s with bList := l ++ s.bList }

theorem emit_withList (l : List BindInfo) (s : BindState) (n : BitVec 64) :
    (s.withList l).emit t n = (s.emit t n).withList l := by
  simp [BindState.emit, BindState.withList, appendBindInfo]

theorem bindTimes_withList (l : List BindInfo) (skip : BitVec 64) (n : ℕ) (s : BindState) :
    bindTimes t skip n (s.withList l) = (bindTimes t skip n s).withList l := by
  induction n generalizing s with
  | zero => rfl
  | succ n ih => rw [bindTimes, bindTimes, emit_withList, ih]

theorem bindOpcodeStep_withList (l : List BindInfo) (op : BindOpcode) (imm : Byte) (s : BindState) :
    bindOpcodeStep E f t stop op imm (s.withList l) =
      (bindOpcodeStep E f t stop op imm s).withList l := by
  cases op with
  | doBind => exact emit_withList t l s _
  | doBindAddAddrUleb => exact emit_withList t l { s with p := _ } _
  | doBindAddAddrImmScaled => exact emit_withList t l s _
  | doBindUlebTimesSkippingUleb => exact bindTimes_withList t l _ _ { s with p := _ }
  | _ => rfl

theorem bindStep_withList (l : List BindInfo) (s : BindState) :
    bindStep E f t stop (s.withList l) = (bindStep E f t stop s).withList l :=
  bindOpcodeStep_withList E f t stop l _ _ { s with p := s.p + 1 }

theorem bindLoop_withList (l : List BindInfo) (n : ℕ) (s : BindState) :
    bindLoop E f t stop n (s.withList l) = (bindLoop E f t stop n s).withList l := by
  induction n generalizing s with
  | zero => rfl
  | succ n ih =>
    rw [bindLoop, bindLoop, bindStep_withList, ih]
    exact (apply_ite (BindState.withList l) _ _ _).symm

/-- The records one call decodes from `[start, stop)`, with fresh registers. -/
def bindRecords (E : Env) (f : File) (t : SegmentTable) (start stop : ℕ) : List BindInfo :=
  (bindFinal E f t [] start stop).bList

theorem bindFinal_withList (l : List BindInfo) (start : ℕ) :
    bindFinal E f t l start stop = (bindFinal E f t [] start stop).withList l := by
  rw [bindFinal, bindFinal, ← bindLoop_withList]
  simp [BindState.init, BindState.withList]

/-- **A call appends the records of its range to the bind list** and changes nothing else. -/
theorem bindListRetriever_eq (c : MachContext) (start : ℕ) :
    bindListRetriever E f c start stop =
      (0, { c with bList := c.bList ++ bindRecords E f c.segments start stop }) := by
  rw [bindListRetriever, bindFinal_withList]
  rfl

end Maloader
