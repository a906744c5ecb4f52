import Maloader.Bind.Rows
import Maloader.Bind.Reads
import Maloader.Lib.While

/-!
# The turns of the bind parser

The `while` loop of `bind_list_retriever` as the turns it takes, on any bytes.

* `bindTurns`; `bindLoop_eq_whileEnd`: the loop is that of the library; `not_lt_bindFinal_p`: it is
  left because the cursor is at or behind the end.
* `bindRecords_eq_turns`: the records of a range are those of the rows of its turns.
* `SetsSymbolAt`, `NameFrom`, `exists_split_bindTurns`: where the current name comes from;
  `exists_split_of_mem_rows`: where a record comes from.
* **`bindListRetriever_frame`**: what a call does, whatever the bytes.
-/

namespace Maloader

open ByteLib WhileLib WalkLib

variable (E : Env) (f : File) (t : SegmentTable) (stop : ℕ)

/-- The condition of the loop, `p < end`. -/
def CursorBelow (s : BindState) : Prop := s.p < stop

instance : DecidablePred (CursorBelow stop) := fun s => inferInstanceAs (Decidable (s.p < stop))

/-- The states in which the body of the loop is entered. -/
def bindTurns (l : List BindInfo) (start : ℕ) : List BindState :=
  whileTurns (CursorBelow stop) (bindStep E f t stop) (stop - start) (BindState.init start l)

theorem bindLoop_eq_whileEnd (n : ℕ) (s : BindState) :
    bindLoop E f t stop n s = whileEnd (CursorBelow stop) (bindStep E f t stop) n s := by
  induction n generalizing s with
  | zero => rfl
  | succ n ih =>
    rw [bindLoop, whileEnd, ih]
    rfl

theorem bytesLeft_bindStep {s : BindState} (h : CursorBelow stop s) :
    stop - (bindStep E f t stop s).p < stop - s.p := by
  have := lt_bindStep_p E f t stop s
  exact Nat.sub_lt_sub_left h this

variable {E f t stop}

theorem bindFinal_eq_whileEnd (l : List BindInfo) (start : ℕ) :
    bindFinal E f t l start stop = whileEnd (CursorBelow stop) (bindStep E f t stop)
      (stop - start) (BindState.init start l) := bindLoop_eq_whileEnd E f t stop _ _

theorem lt_of_mem_bindTurns {l : List BindInfo} {start : ℕ} {s : BindState}
    (hs : s ∈ bindTurns E f t stop l start) : s.p < stop := by
  have hbelow : CursorBelow stop s := cond_of_mem_whileTurns hs
  exact hbelow

theorem le_of_mem_turns {n : ℕ} {s s' : BindState}
    (hs : s' ∈ whileTurns (CursorBelow stop) (bindStep E f t stop) n s) : s.p ≤ s'.p :=
  whileTurns_invariant (P := fun s' : BindState => s.p ≤ s'.p)
    (fun s' _ h => h.trans (lt_bindStep_p E f t stop s').le) le_rfl hs

theorem length_bindTurns_le (l : List BindInfo) (start : ℕ) :
    (bindTurns E f t stop l start).length ≤ stop - start :=
  length_whileTurns_le (μ := fun s : BindState => stop - s.p)
    (fun _ => bytesLeft_bindStep E f t stop) _ (BindState.init start l)

theorem not_lt_bindFinal_p (l : List BindInfo) (start : ℕ) :
    ¬ (bindFinal E f t l start stop).p < stop := by
  rw [bindFinal_eq_whileEnd]
  exact whileEnd_not (μ := fun s : BindState => stop - s.p)
    (fun _ => bytesLeft_bindStep E f t stop) le_rfl

theorem bindStep_bList (s : BindState) : (bindStep E f t stop s).bList =
    s.bList ++ (bindTurnRows E f stop s).map (BindRegs.record t) := by
  rw [bindStep_rows E f stop t t]
  rfl

theorem bindFinal_bList (l : List BindInfo) (start : ℕ) : (bindFinal E f t l start stop).bList =
    l ++ (bindTurns E f t stop l start).flatMap fun s =>
      (bindTurnRows E f stop s).map (BindRegs.record t) := by
  rw [bindFinal_eq_whileEnd]
  exact whileEnd_append bindStep_bList _ _

theorem bindRecords_eq_turns (l : List BindInfo) (start : ℕ) :
    bindRecords E f t start stop = (bindTurns E f t stop l start).flatMap fun s =>
      (bindTurnRows E f stop s).map (BindRegs.record t) := by
  have h : (bindFinal E f t l start stop).bList = _ := bindFinal_bList l start
  rw [bindFinal_withList] at h
  exact List.append_cancel_left h

/-! ## Where a name comes from -/

/-- The turn is a `SET_SYMBOL_TRAILING_FLAGS_IMM`. -/
def SetsSymbolAt (f : File) (s : BindState) : Prop :=
  bindOpcode (byteAt f s.p &&& 0xF0#8) = .setSymbolTrailingFlagsImm

instance (f : File) (s : BindState) : Decidable (SetsSymbolAt f s) := by
  unfold SetsSymbolAt; infer_instance

theorem bindTimes_symbolName (skip : BitVec 64) (n : ℕ) (s : BindState) :
    (bindTimes t skip n s).symbolName = s.symbolName := by
  induction n generalizing s with
  | zero => rfl
  | succ n ih => exact ih _

theorem bindOpcodeStep_symbolName (op : BindOpcode) (imm : Byte) (s : BindState) :
    (bindOpcodeStep E f t stop op imm s).symbolName =
      if op = .setSymbolTrailingFlagsImm then some (cstrAt f s.p) else s.symbolName := by
  cases op <;> simp [bindOpcodeStep, BindState.emit, bindTimes_symbolName]

theorem bindStep_symbolName (s : BindState) : (bindStep E f t stop s).symbolName =
    if SetsSymbolAt f s then some (cstrAt f (s.p + 1)) else s.symbolName := by
  rw [bindStep, bindOpcodeStep_symbolName]
  exact if_congr Iff.rfl rfl rfl

/-- The current name, after these turns, is none or the string behind a `SET_SYMBOL` among them. -/
def NameFrom (f : File) (before : List BindState) (name : Option CString) : Prop :=
  name = none ∨ ∃ s ∈ before, SetsSymbolAt f s ∧ name = some (cstrAt f (s.p + 1))

theorem NameFrom.step {before : List BindState} {s : BindState} (h : NameFrom f before s.symbolName) :
    NameFrom f (before ++ [s]) (bindStep E f t stop s).symbolName := by
  rw [bindStep_symbolName]
  split_ifs with hset
  · exact .inr ⟨s, by simp, hset, rfl⟩
  · rcases h with hnone | ⟨s', hs', hset', hname⟩
    · exact .inl hnone
    · exact .inr ⟨s', List.mem_append_left _ hs', hset', hname⟩

theorem exists_split_bindTurns {l : List BindInfo} {start : ℕ} {s : BindState}
    (hs : s ∈ bindTurns E f t stop l start) :
    ∃ before after, bindTurns E f t stop l start = before ++ s :: after ∧
      NameFrom f before s.symbolName := by
  obtain ⟨before, after, hsplit, hbefore, hend⟩ := exists_split_whileTurns hs
  refine ⟨before, after, hsplit, ?_⟩
  have h := iterate_history (f := bindStep E f t stop) (a := BindState.init start l)
    (P := fun before s => NameFrom f before s.symbolName) (.inl rfl) (fun _ _ _ h => h.step)
    (le_refl before.length)
  rwa [← hbefore, ← hend] at h

/-! ## Any bytes -/

theorem mem_bindTurnRows {s : BindState} {row : BindRegs} (h : row ∈ bindTurnRows E f stop s) :
    row.symbol = s.symbolName ∧ row.segment = s.segmentIndex := by
  unfold bindTurnRows at h
  generalize bindOpcode (byteAt f s.p &&& 0xF0#8) = op at h
  cases op with
  | doBind | doBindAddAddrUleb | doBindAddAddrImmScaled =>
    rw [bindOpcodeRows, List.mem_singleton] at h
    exact h ▸ ⟨rfl, rfl⟩
  | doBindUlebTimesSkippingUleb =>
    obtain ⟨i, -, rfl⟩ := List.mem_map.mp h
    exact ⟨rfl, rfl⟩
  | _ => cases h

/-- **A record comes from a row of a turn**, its name from a turn before. -/
theorem exists_split_of_mem_rows {l : List BindInfo} {start : ℕ} {r : BindInfo}
    (hr : r ∈ (bindTurns E f t stop l start).flatMap fun s =>
      (bindTurnRows E f stop s).map (BindRegs.record t)) :
    ∃ before s after, bindTurns E f t stop l start = before ++ s :: after ∧
      ∃ row ∈ bindTurnRows E f stop s, row.segment = s.segmentIndex ∧ r = row.record t ∧
        NameFrom f before row.symbol := by
  obtain ⟨s, hs, hr⟩ := List.mem_flatMap.mp hr
  obtain ⟨row, hrow, rfl⟩ := List.mem_map.mp hr
  obtain ⟨before, after, hsplit, hname⟩ := exists_split_bindTurns hs
  obtain ⟨hsymbol, hsegment⟩ := mem_bindTurnRows hrow
  exact ⟨before, s, after, hsplit, row, hrow, hsegment, rfl, hsymbol.symm ▸ hname⟩

theorem SegmentTable.locate_cases (t : SegmentTable) (i : ℤ) (offset : BitVec 64) :
    t.locate i offset = 0#64 ∨ ∃ seg, 0 ≤ i ∧ t.recs[i.toNat]? = some seg ∧
      seg.mappedAddr ≠ 0#64 ∧ t.locate i offset = seg.mappedAddr + offset := by
  rw [← bindAddressForSegmentOffset_eq_locate]
  unfold bindAddressForSegmentOffset
  split_ifs with hi
  · exact .inl rfl
  · cases hseg : t.recs[i.toNat]? with
    | none => exact .inl rfl
    | some seg =>
      by_cases hm : seg.mappedAddr = 0#64
      · exact .inl (if_pos hm)
      · exact .inr ⟨seg, not_lt.mp hi, rfl, hm, if_neg hm⟩

/-- **What `bind_list_retriever` does with any bytes.** It enters the body at most once a byte and
leaves because the cursor is at or behind the end. It appends to the bind list and changes nothing
else. Each record it appends is that of a row of a turn: its address is `NULL` or the `mapped_addr`,
not `NULL`, of the recorded segment the turn has selected, plus the row's offset; its name is `NULL`
or the string behind a `SET_SYMBOL` opcode of a turn before. -/
theorem bindListRetriever_frame (E : Env) (f : File) (c : MachContext) (start stop : ℕ) :
    (∃ n ≤ stop - start,
        (∀ k < n, ((bindStep E f c.segments stop)^[k] (BindState.init start c.bList)).p < stop) ∧
        ¬ ((bindStep E f c.segments stop)^[n] (BindState.init start c.bList)).p < stop ∧
        bindFinal E f c.segments c.bList start stop =
          (bindStep E f c.segments stop)^[n] (BindState.init start c.bList)) ∧
    ∃ new : List BindInfo,
      bindListRetriever E f c start stop = (0, { c with bList := c.bList ++ new }) ∧
      ∀ r ∈ new, ∃ before s after, bindTurns E f c.segments stop c.bList start = before ++ s :: after ∧
        ∃ row ∈ bindTurnRows E f stop s, row.segment = s.segmentIndex ∧
          (r.address = 0#64 ∨ ∃ seg, 0 ≤ row.segment ∧
            c.segments.recs[row.segment.toNat]? = some seg ∧ seg.mappedAddr ≠ 0#64 ∧
            r.address = seg.mappedAddr + row.offset) ∧
          (r.funcName = none ∨ ∃ s' ∈ before, SetsSymbolAt f s' ∧
            r.funcName = some (cstrAt f (s'.p + 1))) := by
  constructor
  · have hend : bindFinal E f c.segments c.bList start stop = _ :=
      (bindFinal_eq_whileEnd c.bList start).trans (whileEnd_eq_iterate _ _)
    refine ⟨(bindTurns E f c.segments stop c.bList start).length, length_bindTurns_le _ _, ?_, ?_,
      hend⟩
    · intro k hk
      exact cond_iterate_of_lt hk
    · have hleft : ¬ (bindFinal E f c.segments c.bList start stop).p < stop :=
        not_lt_bindFinal_p c.bList start
      rwa [hend] at hleft
  · refine ⟨(bindTurns E f c.segments stop c.bList start).flatMap fun s =>
      (bindTurnRows E f stop s).map (BindRegs.record c.segments), ?_, ?_⟩
    · rw [bindListRetriever, bindFinal_bList]
    · intro r hr
      obtain ⟨before, s, after, hsplit, row, hrow, hsegment, rfl, hname⟩ :=
        exists_split_of_mem_rows hr
      exact ⟨before, s, after, hsplit, row, hrow, hsegment, c.segments.locate_cases _ _, hname⟩

end Maloader
