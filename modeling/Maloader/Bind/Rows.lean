import Maloader.Bind.Program

/-!
# The rows of a byte stream

Any bytes, well formed or not, decode to rows of the bind table. Which rows these are does not
depend on the recorded segments; only where a row points does.

* `bindOpcodeRows`, `bindTurnRows`: the rows of one opcode, of one turn.
* `bindStep_rows`: a turn appends the records of its rows and moves the columns on.
* `streamRows`, `bindRecords_eq_rows`: the rows of a stream and its records.
-/

namespace Maloader

open ByteLib

/-- No segment is recorded. -/
def SegmentTable.empty : SegmentTable := ⟨[], Nat.zero_le _⟩

/-- The columns among the parser's locals. -/
def BindState.regs (s : BindState) : BindRegs := ⟨s.symbolName, s.segmentIndex, s.segmentOffset⟩

/-- The same locals over another list. -/
def BindState.setList (s : BindState) (l : List BindInfo) : BindState := { s with bList := l }

variable (E : Env) (f : File) (stop : ℕ)

/-! ## One turn -/

/-- The rows an opcode adds, its operands read from the file. -/
def bindOpcodeRows (op : BindOpcode) (s : BindState) : List BindRegs :=
  match op with
  | .doBind | .doBindAddAddrUleb | .doBindAddAddrImmScaled => [s.regs]
  | .doBindUlebTimesSkippingUleb =>
    let count := readUleb128 E f s.p stop
    let skip := readUleb128 E f count.2 stop
    (List.range count.1.toNat).map fun i =>
      { s.regs with offset := s.regs.offset + BitVec.ofNat 64 i * (8#64 + skip.1) }
  | _ => []

/-- The rows of one turn. -/
def bindTurnRows (s : BindState) : List BindRegs :=
  bindOpcodeRows E f stop (bindOpcode (byteAt f s.p &&& 0xF0#8)) { s with p := s.p + 1 }

theorem bindOpcodeStep_rows (t t' : SegmentTable) (op : BindOpcode) (imm : Byte) (s : BindState) :
    bindOpcodeStep E f t stop op imm s = (bindOpcodeStep E f t' stop op imm s).setList
      (s.bList ++ (bindOpcodeRows E f stop op s).map (BindRegs.record t)) := by
  have hemit : ∀ (s : BindState) (n : BitVec 64),
      s.emit t n = (s.emit t' n).setList (s.bList ++ [s.regs.record t]) := fun s n => by
    rw [BindRegs.record, ← bindAddressForSegmentOffset_eq_locate]
    rfl
  cases op with
  | doBind => exact hemit s _
  | doBindAddAddrUleb => exact hemit { s with p := _ } _
  | doBindAddAddrImmScaled => exact hemit s _
  | doBindUlebTimesSkippingUleb =>
    have htimes : ∀ (t : SegmentTable) (skip : BitVec 64) (n p : ℕ),
        bindTimes t skip n { s with p := p } = _ := fun t skip n p =>
      bindTimes_state t skip n s.regs p s.bList
    simp only [bindOpcodeStep, htimes, bindOpcodeRows, List.map_map]
    rfl
  | _ => simp [bindOpcodeStep, bindOpcodeRows, BindState.setList]

/-- **One turn** appends the records of its rows; its columns do not depend on the table. -/
theorem bindStep_rows (t t' : SegmentTable) (s : BindState) :
    bindStep E f t stop s = (bindStep E f t' stop s).setList
      (s.bList ++ (bindTurnRows E f stop s).map (BindRegs.record t)) :=
  bindOpcodeStep_rows E f stop t t' _ _ { s with p := s.p + 1 }

/-! ## A stream -/

/-- The rows of at most `n` turns. -/
def streamRowsLoop : ℕ → BindState → List BindRegs
  | 0, _ => []
  | n + 1, s =>
    if s.p < stop then
      bindTurnRows E f stop s ++
        streamRowsLoop n ((bindStep E f SegmentTable.empty stop s).setList [])
    else []

/-- The rows that one call decodes from `[start, stop)`. -/
def streamRows (start : ℕ) : List BindRegs :=
  streamRowsLoop E f stop (stop - start) (BindState.init start [])

theorem bindLoop_rows (t : SegmentTable) (n : ℕ) {s : BindState} (hs : s.bList = []) :
    (bindLoop E f t stop n s).bList = (streamRowsLoop E f stop n s).map (BindRegs.record t) := by
  induction n generalizing s with
  | zero => exact hs
  | succ n ih =>
    rw [bindLoop, streamRowsLoop]
    split_ifs
    · have hstep : bindStep E f t stop s =
          ((bindStep E f SegmentTable.empty stop s).setList []).withList
            ((bindTurnRows E f stop s).map (BindRegs.record t)) := by
        rw [bindStep_rows E f stop t SegmentTable.empty, hs, List.nil_append, BindState.withList,
          BindState.setList, BindState.setList, List.append_nil]
      rw [hstep, bindLoop_withList, List.map_append, ← ih rfl]
      rfl
    · exact hs

theorem bindRecords_eq_rows (t : SegmentTable) (start : ℕ) :
    bindRecords E f t start stop = (streamRows E f stop start).map (BindRegs.record t) :=
  bindLoop_rows E f stop t _ rfl

end Maloader
