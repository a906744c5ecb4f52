import Maloader.Bind.Laws
import Maloader.Bind.Turns

/-!
# Cut bind streams

A stream that is cut at any byte: in an opcode, in an operand, in a string.

* `readUleb128_cut`: an operand read up to the cut is the operand, or the cursor ends at the cut and
  some of its bits are missing.
* `bindOpcodeStep_cut`: a turn of the cut stream is the turn of the whole one, or the last.
* `TimesAgree`, `rows_prefix_iff`: the one opcode whose operands decide where it binds.
* **`bindListRetriever_cut_iff`**: exactly when the records of the cut stream are the first ones of
  the whole one.
-/

namespace Maloader

open ByteLib WhileLib

variable {E : Env} {f : File} {cut stop : ℕ}

/-! ## Operands -/

theorem le_foldl_ulebAccumulate (turns : List UlebTurn) (r : BitVec 64) :
    r.toNat ≤ (turns.foldl (ulebAccumulate E f) r).toNat := by
  induction turns generalizing r with
  | nil => exact le_rfl
  | cons turn turns ih =>
    refine le_trans ?_ (ih (ulebAccumulate E f r turn))
    rw [ulebAccumulate, BitVec.toNat_or]
    exact Nat.left_le_or

theorem readUleb128LoopTurns_take {n m : ℕ} (h : n ≤ m) (p bit : ℕ) :
    readUleb128LoopTurns f n p bit = (readUleb128LoopTurns f m p bit).take n := by
  induction n generalizing m p bit with
  | zero => rfl
  | succ n ih =>
    obtain ⟨m, rfl⟩ : ∃ k, m = k + 1 := ⟨m - 1, by omega⟩
    rw [readUleb128LoopTurns, readUleb128LoopTurns, List.take_succ_cons]
    split_ifs with hlast
    · rw [List.take_nil]
    · rw [ih (Nat.le_of_succ_le_succ h)]

/-- **An operand read up to a cut** is the operand, or the cursor ends at the cut with some bits
missing. -/
theorem readUleb128_cut {p : ℕ} (hp : p ≤ cut) (hcut : cut ≤ stop) :
    (readUleb128 E f p stop).2 ≤ cut ∧ readUleb128 E f p cut = readUleb128 E f p stop ∨
      cut < (readUleb128 E f p stop).2 ∧ (readUleb128 E f p cut).2 = cut ∧
        (readUleb128 E f p cut).1.toNat ≤ (readUleb128 E f p stop).1.toNat := by
  have htake : readUleb128Turns f p cut = (readUleb128Turns f p stop).take (cut - p) :=
    readUleb128LoopTurns_take (by omega) p 0
  rw [readUleb128_eq_foldl E f p cut, readUleb128_eq_foldl E f p stop, htake]
  rcases Nat.lt_or_ge (cut - p) (readUleb128Turns f p stop).length with hlt | hge
  · right
    refine ⟨?_, ?_, ?_⟩
    · dsimp only
      omega
    · rw [List.length_take, Nat.min_eq_left hlt.le]
      omega
    · conv_rhs => rw [← List.take_append_drop (cut - p) (readUleb128Turns f p stop)]
      rw [List.foldl_append]
      exact le_foldl_ulebAccumulate _ _
  · left
    rw [List.take_of_length_le hge]
    refine ⟨?_, rfl⟩
    dsimp only
    omega

theorem readUleb128_self (p : ℕ) : readUleb128 E f p p = (0#64, p) := by
  rw [readUleb128, Nat.sub_self]
  rfl

/-! ## One turn -/

/-- **A turn of the cut stream** is the turn of the whole stream, or its cursor is at the cut, which
the whole turn passes. -/
theorem bindOpcodeStep_cut (t : SegmentTable) (op : BindOpcode) (imm : Byte) {s : BindState}
    (hp : s.p ≤ cut) (hcut : cut ≤ stop) :
    bindOpcodeStep E f t cut op imm s = bindOpcodeStep E f t stop op imm s ∨
      (bindOpcodeStep E f t cut op imm s).p = cut ∧ cut < (bindOpcodeStep E f t stop op imm s).p := by
  have huleb := readUleb128_cut (E := E) (f := f) hp hcut
  cases op with
  | setDylibOrdinalUleb | setAddendSleb | setSegmentAndOffsetUleb | addAddrUleb
  | doBindAddAddrUleb =>
    rcases huleb with ⟨-, heq⟩ | ⟨hpast, hend, -⟩
    · left
      simp only [bindOpcodeStep, heq]
    · exact .inr ⟨hend, hpast⟩
  | doBindUlebTimesSkippingUleb =>
    simp only [bindOpcodeStep, bindTimes_p]
    rcases huleb with ⟨hle, heq⟩ | ⟨hpast, hend, -⟩
    · rw [heq]
      rcases readUleb128_cut (E := E) (f := f) hle hcut with ⟨-, hskip⟩ | ⟨hpast, hend, -⟩
      · exact .inl (by rw [hskip])
      · exact .inr ⟨hend, hpast⟩
    · right
      refine ⟨by rw [hend, readUleb128_self], hpast.trans_le (le_readUleb128 E f stop _)⟩
  | _ => exact .inl rfl

/-! ## The rows of a turn -/

/-- The index names a recorded segment that is mapped. -/
def SegmentTable.MappedAt (t : SegmentTable) (i : ℤ) : Prop :=
  0 ≤ i ∧ ∃ seg ∈ t.recs[i.toNat]?, seg.mappedAddr ≠ 0#64

instance (t : SegmentTable) (i : ℤ) : Decidable (t.MappedAt i) := by
  unfold SegmentTable.MappedAt; infer_instance

theorem SegmentTable.locate_of_mappedAt {t : SegmentTable} {i : ℤ} (h : t.MappedAt i) :
    ∃ base, ∀ offset, t.locate i offset = base + offset := by
  obtain ⟨hi, seg, hseg, hm⟩ := h
  refine ⟨seg.mappedAddr, fun offset => ?_⟩
  rw [locate, Option.mem_def.mp hseg]
  simp [Option.filter, hi, hm]

theorem SegmentTable.locate_of_not_mappedAt {t : SegmentTable} {i : ℤ} (h : ¬ t.MappedAt i)
    (offset : BitVec 64) : t.locate i offset = 0#64 := by
  rcases t.locate_cases i offset with hnull | ⟨seg, hi, hseg, hm, -⟩
  · exact hnull
  · exact absurd ⟨hi, seg, hseg, hm⟩ h

/-- The operands of the `DO_BIND_ULEB_TIMES_SKIPPING_ULEB` of a turn, read up to `stop`. -/
def timesOperands (E : Env) (f : File) (stop : ℕ) (s : BindState) : BitVec 64 × BitVec 64 :=
  let count := readUleb128 E f (s.p + 1) stop
  (count.1, (readUleb128 E f count.2 stop).1)

/-- A `DO_BIND_ULEB_TIMES_SKIPPING_ULEB` turn that binds in a mapped segment at two places at least,
as it is read up to the cut, reads the same skip as without the cut. -/
def TimesAgree (E : Env) (f : File) (t : SegmentTable) (cut stop : ℕ) (s : BindState) : Prop :=
  bindOpcode (byteAt f s.p &&& 0xF0#8) = .doBindUlebTimesSkippingUleb → t.MappedAt s.segmentIndex →
    2 ≤ (timesOperands E f cut s).1.toNat →
      (timesOperands E f cut s).2 = (timesOperands E f stop s).2

instance (E : Env) (f : File) (t : SegmentTable) (cut stop : ℕ) (s : BindState) :
    Decidable (TimesAgree E f t cut stop s) := by
  unfold TimesAgree; infer_instance

theorem map_range_prefix_iff {α : Type} {g h : ℕ → α} {k n : ℕ} (hk : k ≤ n) (more : List α) :
    (List.range k).map g <+: (List.range n).map h ++ more ↔ ∀ i < k, g i = h i := by
  obtain ⟨m, rfl⟩ := Nat.exists_eq_add_of_le hk
  rw [List.range_add, List.map_append, List.append_assoc]
  constructor
  · intro hpre i hi
    have hpre' : (List.range k).map g <+: (List.range k).map h :=
      List.prefix_of_prefix_length_le hpre (List.prefix_append _ _) (by simp)
    have heq := hpre'.eq_of_length (by simp)
    exact List.map_inj_left.mp heq i (List.mem_range.mpr hi)
  · intro heq
    rw [List.map_congr_left fun i hi => heq i (List.mem_range.mp hi)]
    exact List.prefix_append _ _

theorem locate_times_eq_iff (t : SegmentTable) (i : ℤ) (off skip skip' : BitVec 64) (n : ℕ) :
    (∀ k < n, t.locate i (off + BitVec.ofNat 64 k * (8#64 + skip)) =
        t.locate i (off + BitVec.ofNat 64 k * (8#64 + skip'))) ↔
      (t.MappedAt i → 2 ≤ n → skip = skip') := by
  by_cases hm : t.MappedAt i
  · obtain ⟨base, hbase⟩ := SegmentTable.locate_of_mappedAt hm
    simp only [hbase, hm, true_implies]
    constructor
    · intro h hn
      have hone := h 1 hn
      simpa using hone
    · intro h k hk
      cases k with
      | zero => simp
      | succ k => rw [h (by omega)]
  · simp [SegmentTable.locate_of_not_mappedAt hm, hm]

theorem timesRows_map (s : BindState) (t : SegmentTable)
    (hop : bindOpcode (byteAt f s.p &&& 0xF0#8) = .doBindUlebTimesSkippingUleb) :
    (bindTurnRows E f stop s).map (BindRegs.record t) =
      (List.range (timesOperands E f stop s).1.toNat).map fun i => ⟨s.symbolName,
        t.locate s.segmentIndex
          (s.segmentOffset + BitVec.ofNat 64 i * (8#64 + (timesOperands E f stop s).2))⟩ := by
  rw [bindTurnRows, hop, bindOpcodeRows, List.map_map]
  rfl

/-- **The records of a cut turn** begin those of the whole turn exactly if a counted bind reads the
same skip. -/
theorem rows_prefix_iff (t : SegmentTable) {s : BindState} (hp : s.p < cut) (hcut : cut ≤ stop)
    (more : List BindInfo) :
    (bindTurnRows E f cut s).map (BindRegs.record t) <+:
        (bindTurnRows E f stop s).map (BindRegs.record t) ++ more ↔ TimesAgree E f t cut stop s := by
  by_cases hop : bindOpcode (byteAt f s.p &&& 0xF0#8) = .doBindUlebTimesSkippingUleb
  · have hcount : (timesOperands E f cut s).1.toNat ≤ (timesOperands E f stop s).1.toNat := by
      rcases readUleb128_cut (E := E) (f := f) (Nat.succ_le_of_lt hp) hcut with ⟨-, heq⟩ | ⟨-, -, hle⟩
      · exact (congrArg (fun r => r.1.toNat) heq).le
      · exact hle
    rw [timesRows_map s t hop, timesRows_map s t hop, map_range_prefix_iff hcount, TimesAgree]
    simp only [BindInfo.mk.injEq, true_and, locate_times_eq_iff, hop, true_implies]
  · have hsame : bindTurnRows E f cut s = bindTurnRows E f stop s := by
      unfold bindTurnRows
      cases hopcode : bindOpcode (byteAt f s.p &&& 0xF0#8) <;> first | rfl | exact absurd hopcode hop
    rw [hsame]
    exact iff_of_true (List.prefix_append _ _) fun h => absurd h hop

/-! ## A call -/

theorem bindTurnRows_eq_of_step_eq {t : SegmentTable} {s : BindState}
    (h : bindStep E f t cut s = bindStep E f t stop s) :
    (bindTurnRows E f cut s).map (BindRegs.record t) =
      (bindTurnRows E f stop s).map (BindRegs.record t) := by
  have hlist := congrArg BindState.bList h
  rw [bindStep_bList, bindStep_bList] at hlist
  exact List.append_cancel_left hlist

theorem prefix_bindLoop (stop : ℕ) (t : SegmentTable) (n : ℕ) (s : BindState) :
    ∃ more, (bindLoop E f t stop n s).bList = s.bList ++ more := by
  rw [bindLoop_eq_whileEnd]
  exact ⟨_, whileEnd_append bindStep_bList n s⟩

/-- **The loop over a cut stream**, from any turn on. -/
theorem bindLoop_cut_iff (t : SegmentTable) (hcut : cut ≤ stop) (n : ℕ) (s : BindState) :
    (bindLoop E f t cut n s).bList <+: (bindLoop E f t stop n s).bList ↔
      ∀ s' ∈ whileTurns (CursorBelow stop) (bindStep E f t stop) n s, s'.p < cut →
        TimesAgree E f t cut stop s' := by
  induction n generalizing s with
  | zero => exact iff_of_true List.prefix_rfl (by simp [whileTurns])
  | succ n ih =>
    by_cases hp : s.p < cut
    · have hstop : CursorBelow stop s := hp.trans_le hcut
      have hturns : whileTurns _ (bindStep E f t stop) (n + 1) s = _ := whileTurns_of_cond hstop n
      rw [bindLoop, if_pos hp, bindLoop, if_pos (show s.p < stop from hstop), hturns,
        List.forall_mem_cons]
      obtain ⟨more, hmore⟩ := prefix_bindLoop (E := E) (f := f) stop t n
        (bindStep E f t stop s)
      have hrows := rows_prefix_iff (E := E) (f := f) t hp hcut more
      rcases bindOpcodeStep_cut (E := E) (f := f) t (bindOpcode (byteAt f s.p &&& 0xF0#8))
        (byteAt f s.p &&& 0x0F#8) (s := { s with p := s.p + 1 }) hp hcut with heq | ⟨hend, hpast⟩
      · have hstep : bindStep E f t cut s = bindStep E f t stop s := heq
        have hagree : TimesAgree E f t cut stop s := by
          rw [← hrows, bindTurnRows_eq_of_step_eq hstep]
          exact List.prefix_append _ _
        rw [hstep, ih]
        exact ⟨fun h => ⟨fun _ => hagree, h⟩, fun h => h.2⟩
      · have hleave : bindLoop E f t cut n (bindStep E f t cut s) = bindStep E f t cut s :=
          bindLoop_of_le E f t cut n _ hend.ge
        rw [hleave, hmore, bindStep_bList, bindStep_bList, List.append_assoc,
          List.prefix_append_right_inj, hrows]
        -- the whole turn passes the cut, so this one is the last in front of it
        exact ⟨fun h => ⟨fun _ => h, fun s' hs' hlt =>
          absurd hlt (not_lt.mpr (hpast.le.trans (le_of_mem_turns hs')))⟩, fun h => h.1 hp⟩
    · obtain ⟨more, hmore⟩ := prefix_bindLoop (E := E) (f := f) stop t (n + 1) s
      rw [bindLoop_of_le E f t cut _ s (not_lt.mp hp), hmore]
      exact iff_of_true (List.prefix_append _ _) fun s' hs' hlt =>
        absurd hlt (not_lt.mpr ((not_lt.mp hp).trans (le_of_mem_turns hs')))

/-- **Cutting a bind stream invents no record** exactly if every
`DO_BIND_ULEB_TIMES_SKIPPING_ULEB` in front of the cut that, as read up to the cut, binds at two
places or more of a mapped segment reads the skip it reads without the cut. -/
theorem bindListRetriever_cut_iff (E : Env) (f : File) (c : MachContext) (start cut stop : ℕ)
    (hcut : cut ≤ stop) :
    (bindListRetriever E f c start cut).2.bList <+: (bindListRetriever E f c start stop).2.bList ↔
      ∀ s ∈ bindTurns E f c.segments stop c.bList start, s.p < cut →
        TimesAgree E f c.segments cut stop s := by
  have hfuel : (bindListRetriever E f c start cut).2.bList =
      (bindLoop E f c.segments cut (stop - start) (BindState.init start c.bList)).bList := by
    have hadd := bindLoop_add E f c.segments cut (cut - start) (stop - start - (cut - start))
      (BindState.init start c.bList) (show cut ≤ start + (cut - start) by omega)
    rw [show cut - start + (stop - start - (cut - start)) = stop - start by omega] at hadd
    rw [hadd]
    rfl
  rw [hfuel]
  exact bindLoop_cut_iff c.segments hcut _ _

/-- Two places sixteen bytes apart. -/
def timesStream : File := [0x70, 0x00, 0xC0, 0x02, 0x08]

theorem bindListRetriever_cut_count :
    (bindListRetriever Env.plain timesStream oneSegmentContext 0 3).2.bList <+:
      (bindListRetriever Env.plain timesStream oneSegmentContext 0 5).2.bList :=
  (bindListRetriever_cut_iff Env.plain timesStream oneSegmentContext 0 3 5 (by decide)).mpr
    (by decide)

/-- Cut in front of the skip, the second place is eight bytes behind the first. -/
theorem bindListRetriever_cut_invents :
    ¬ (bindListRetriever Env.plain timesStream oneSegmentContext 0 4).2.bList <+:
        (bindListRetriever Env.plain timesStream oneSegmentContext 0 5).2.bList := by
  decide

end Maloader
