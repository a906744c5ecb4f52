import Maloader.Bind.Turns

/-!
# The bytes the bind parser reads

* `ulebReads`, `strlenReads`, `bindOpcodeReads`, `bindTurnReads`, `bindReads`: the offsets of all
  bytes read, in order; `bindStep_congr`, **`bindListRetriever_congr`**: a call depends on these
  bytes only, so none is missing.
* `bindOpcodeReads_inside`, `bindOpcodeStep_p_le`: one opcode keeps to its range, but for the
  string.
* **`bindReads_inside_iff`**: exactly when a call keeps to its range.
-/

namespace Maloader

open ByteLib WhileLib

/-! ## The reads -/

/-- The bytes `read_uleb128` reads. -/
def ulebReads (f : File) (p stop : ℕ) : List ℕ := (readUleb128Turns f p stop).map UlebTurn.offset

/-- The bytes `strlen` reads: the string and the NUL. -/
def strlenReads (f : File) (p : ℕ) : List ℕ := List.range' p ((cstrAt f p).length + 1)

variable (E : Env) (f : File) (stop : ℕ)

/-- The bytes read behind an opcode byte. -/
def bindOpcodeReads (op : BindOpcode) (p : ℕ) : List ℕ :=
  match op with
  | .setDylibOrdinalUleb | .setAddendSleb | .setSegmentAndOffsetUleb | .addAddrUleb
  | .doBindAddAddrUleb => ulebReads f p stop
  | .setSymbolTrailingFlagsImm => strlenReads f p
  | .doBindUlebTimesSkippingUleb =>
    ulebReads f p stop ++ ulebReads f (readUleb128 E f p stop).2 stop
  | _ => []

/-- The bytes read in a turn. -/
def bindTurnReads (s : BindState) : List ℕ :=
  s.p :: bindOpcodeReads E f stop (bindOpcode (byteAt f s.p &&& 0xF0#8)) (s.p + 1)

/-- The bytes read in a call. -/
def bindReads (t : SegmentTable) (l : List BindInfo) (start : ℕ) : List ℕ :=
  (bindTurns E f t stop l start).flatMap (bindTurnReads E f stop)

/-! ## Nothing else is read -/

variable {E f stop}

theorem readUleb128_congr_reads {g : File} {p : ℕ} (h : ∀ i ∈ ulebReads f p stop, byteAt g i = byteAt f i) :
    readUleb128 E g p stop = readUleb128 E f p stop :=
  readUleb128_congr E fun _ hturn => h _ (List.mem_map_of_mem hturn)

theorem cstrAt_congr_reads {g : File} {p : ℕ} (h : ∀ i ∈ strlenReads f p, byteAt g i = byteAt f i) :
    cstrAt g p = cstrAt f p := by
  refine cstr_congr fun i hi => ?_
  rw [byteAt_drop, byteAt_drop]
  exact h _ (List.mem_range'_1.mpr ⟨Nat.le_add_right p i, by rw [cstrAt]; omega⟩)

/-- **One opcode** depends on the bytes read behind it only. -/
theorem bindOpcodeStep_congr {g : File} (t : SegmentTable) {op : BindOpcode} {s : BindState}
    (h : ∀ i ∈ bindOpcodeReads E f stop op s.p, byteAt g i = byteAt f i) (imm : Byte) :
    bindOpcodeStep E g t stop op imm s = bindOpcodeStep E f t stop op imm s := by
  cases op with
  | setDylibOrdinalUleb | setAddendSleb | setSegmentAndOffsetUleb | addAddrUleb
  | doBindAddAddrUleb => simp only [bindOpcodeStep, readUleb128_congr_reads h]
  | setSymbolTrailingFlagsImm => simp only [bindOpcodeStep, cstrAt_congr_reads h]
  | doBindUlebTimesSkippingUleb =>
    have hcount : readUleb128 E g s.p stop = readUleb128 E f s.p stop :=
      readUleb128_congr_reads fun i hi => h i (List.mem_append_left _ hi)
    have hskip : readUleb128 E g (readUleb128 E f s.p stop).2 stop = _ :=
      readUleb128_congr_reads fun i hi => h i (List.mem_append_right _ hi)
    simp only [bindOpcodeStep, hcount, hskip]
  | _ => rfl

theorem bindStep_congr {g : File} (t : SegmentTable) {s : BindState}
    (h : ∀ i ∈ bindTurnReads E f stop s, byteAt g i = byteAt f i) :
    bindStep E g t stop s = bindStep E f t stop s := by
  have hopcode : byteAt g s.p = byteAt f s.p := h _ List.mem_cons_self
  rw [bindStep, bindStep, hopcode]
  exact bindOpcodeStep_congr t (fun i hi => h i (List.mem_cons_of_mem _ hi)) _

/-- **A call depends on the bytes it reads only.** -/
theorem bindListRetriever_congr {g : File} (c : MachContext) {start : ℕ}
    (h : ∀ i ∈ bindReads E f stop c.segments c.bList start, byteAt g i = byteAt f i) :
    bindListRetriever E g c start stop = bindListRetriever E f c start stop := by
  have hstep : ∀ s ∈ bindTurns E f c.segments stop c.bList start,
      bindStep E g c.segments stop s = bindStep E f c.segments stop s := fun s hs =>
    bindStep_congr _ fun i hi => h i (List.mem_flatMap.mpr ⟨s, hs, hi⟩)
  rw [bindListRetriever, bindListRetriever, bindFinal_eq_whileEnd, bindFinal_eq_whileEnd,
    whileEnd_congr hstep]

/-! ## One turn -/

theorem mem_ulebReads {p i : ℕ} (h : i ∈ ulebReads f p stop) : p ≤ i ∧ i < stop := by
  obtain ⟨turn, hturn, rfl⟩ := List.mem_map.mp h
  exact offset_of_mem_readUleb128Turns hturn

/-- The string at `p` and its NUL lie in front of `stop`. -/
def TerminatedBefore (f : File) (stop p : ℕ) : Prop := ∃ i, p ≤ i ∧ i < stop ∧ byteAt f i = 0#8

theorem terminatedBefore_iff {p : ℕ} :
    TerminatedBefore f stop p ↔ p + (cstrAt f p).length < stop := by
  have hlt : (cstrAt f p).length < stop - p ↔ _ := length_cstr_lt_iff
  rw [← Nat.lt_sub_iff_add_lt', hlt]
  constructor
  · rintro ⟨i, hpi, hi, hzero⟩
    exact ⟨i - p, by omega, by rwa [byteAt_drop, Nat.add_sub_cancel' hpi]⟩
  · rintro ⟨i, hi, hzero⟩
    exact ⟨p + i, Nat.le_add_right p i, by omega, by rwa [byteAt_drop] at hzero⟩

instance (f : File) (stop p : ℕ) : Decidable (TerminatedBefore f stop p) :=
  decidable_of_iff _ terminatedBefore_iff.symm

theorem bindOpcodeReads_inside {op : BindOpcode} {p i : ℕ}
    (hname : op = .setSymbolTrailingFlagsImm → TerminatedBefore f stop p)
    (hi : i ∈ bindOpcodeReads E f stop op p) : p ≤ i ∧ i < stop := by
  cases op with
  | setDylibOrdinalUleb | setAddendSleb | setSegmentAndOffsetUleb | addAddrUleb
  | doBindAddAddrUleb => exact mem_ulebReads hi
  | setSymbolTrailingFlagsImm =>
    have hend := terminatedBefore_iff.mp (hname rfl)
    obtain ⟨hle, hlt⟩ := List.mem_range'_1.mp hi
    exact ⟨hle, by omega⟩
  | doBindUlebTimesSkippingUleb =>
    rcases List.mem_append.mp hi with hi | hi
    · exact mem_ulebReads hi
    · obtain ⟨hle, hlt⟩ := mem_ulebReads hi
      exact ⟨(le_readUleb128 E f stop p).trans hle, hlt⟩
  | _ => cases hi

theorem bindOpcodeStep_p_le (t : SegmentTable) {op : BindOpcode} {s : BindState} (imm : Byte)
    (hp : s.p ≤ stop) (hname : op = .setSymbolTrailingFlagsImm → TerminatedBefore f stop s.p) :
    (bindOpcodeStep E f t stop op imm s).p ≤ stop := by
  have h1 := readUleb128_snd_le E (f := f) hp
  have h2 := readUleb128_snd_le E (f := f) h1
  cases op with
  | setSymbolTrailingFlagsImm =>
    have hend := terminatedBefore_iff.mp (hname rfl)
    simp only [bindOpcodeStep]
    omega
  | _ => simpa only [bindOpcodeStep, BindState.emit, bindTimes_p]

/-! ## A call -/

/-- The string of every `SET_SYMBOL` turn ends in front of `stop`. -/
def NamesTerminated (E : Env) (f : File) (stop : ℕ) (t : SegmentTable) (l : List BindInfo)
    (start : ℕ) : Prop :=
  ∀ s ∈ bindTurns E f t stop l start, SetsSymbolAt f s → TerminatedBefore f stop (s.p + 1)

instance (E : Env) (f : File) (stop : ℕ) (t : SegmentTable) (l : List BindInfo) (start : ℕ) :
    Decidable (NamesTerminated E f stop t l start) := by
  unfold NamesTerminated; infer_instance

theorem start_le_of_mem_bindTurns {t : SegmentTable} {l : List BindInfo} {start : ℕ} {s : BindState}
    (hs : s ∈ bindTurns E f t stop l start) : start ≤ s.p := le_of_mem_turns hs

theorem NamesTerminated.bindStep_p_le {t : SegmentTable} {l : List BindInfo} {start : ℕ}
    (h : NamesTerminated E f stop t l start) {s : BindState} (hs : s ∈ bindTurns E f t stop l start) :
    (bindStep E f t stop s).p ≤ stop := by
  have hlt := lt_of_mem_bindTurns hs
  exact bindOpcodeStep_p_le t _ (s := { s with p := s.p + 1 }) hlt (h s hs)

/-- What a call does inside its range. -/
structure StaysInside (E : Env) (f : File) (c : MachContext) (start stop : ℕ) : Prop where
  reads : ∀ i ∈ bindReads E f stop c.segments c.bList start, start ≤ i ∧ i < stop
  cursor : (∀ s ∈ bindTurns E f c.segments stop c.bList start, s.p ≤ stop) ∧
    (bindFinal E f c.segments c.bList start stop).p ≤ stop
  names : ∀ r ∈ bindRecords E f c.segments start stop, ∀ name, r.funcName = some name →
    ∃ p, start ≤ p ∧ name = cstrAt f p ∧ p + name.length < stop

/-- **A call keeps to its range** exactly if the string behind each `SET_SYMBOL` opcode it comes to
has its NUL in the range. -/
theorem bindReads_inside_iff (E : Env) (f : File) (c : MachContext) (start stop : ℕ)
    (hrange : start ≤ stop) :
    StaysInside E f c start stop ↔ NamesTerminated E f stop c.segments c.bList start := by
  constructor
  · intro h s hs hset
    have hread : s.p + 1 + (cstrAt f (s.p + 1)).length ∈ bindTurnReads E f stop s := by
      refine List.mem_cons_of_mem _ ?_
      rw [show bindOpcode _ = _ from hset, bindOpcodeReads, strlenReads, List.mem_range'_1]
      omega
    have hinside := h.reads _ (List.mem_flatMap.mpr ⟨s, hs, hread⟩)
    exact terminatedBefore_iff.mpr hinside.2
  · intro h
    refine ⟨?_, ⟨fun s hs => (lt_of_mem_bindTurns hs).le, ?_⟩, ?_⟩
    · intro i hi
      obtain ⟨s, hs, hi⟩ := List.mem_flatMap.mp hi
      have hstart := start_le_of_mem_bindTurns hs
      rcases List.mem_cons.mp hi with rfl | hi
      · exact ⟨hstart, lt_of_mem_bindTurns hs⟩
      · obtain ⟨hle, hlt⟩ := bindOpcodeReads_inside (h s hs) hi
        exact ⟨by omega, hlt⟩
    · rw [bindFinal_eq_whileEnd]
      exact whileEnd_invariant (P := fun s : BindState => s.p ≤ stop)
        (fun s hs _ => h.bindStep_p_le hs) hrange
    · intro r hr name hname
      rw [bindRecords_eq_turns c.bList] at hr
      obtain ⟨before, s, after, hsplit, row, -, -, rfl, horigin⟩ := exists_split_of_mem_rows hr
      rcases horigin with hnone | ⟨s', hs', hset, hsome⟩
      · exact absurd (hnone.symm.trans hname) (by simp)
      · have hmem : s' ∈ bindTurns E f c.segments stop c.bList start :=
          hsplit ▸ List.mem_append_left _ hs'
        obtain rfl : cstrAt f (s'.p + 1) = name := by
          have hsame : row.symbol = some name := hname
          rw [hsome] at hsame
          exact Option.some.inj hsame
        exact ⟨s'.p + 1, (start_le_of_mem_bindTurns hmem).trans (Nat.le_succ _), rfl,
          terminatedBefore_iff.mp (h s' hmem hset)⟩

theorem bindReads_inside_terminated :
    StaysInside Env.plain [0x40, 0x61, 0x00, 0x90] (MachContext.zero fun _ => 0#8) 0 4 := by
  refine (bindReads_inside_iff Env.plain _ _ 0 4 (by decide)).mpr ?_
  decide

/-- A name that runs into the end of its range: `strlen` reads on, and the cursor follows. -/
theorem bindReads_outside :
    ¬ StaysInside Env.plain [0x40, 0x61, 0x62, 0x00] (MachContext.zero fun _ => 0#8) 0 2 := by
  intro h
  have hcursor := h.cursor.2
  revert hcursor
  decide

end Maloader
