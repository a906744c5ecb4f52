import Maloader.Bind.Laws

/-!
# What `read_uleb128` reads

The loop of `read_uleb128` turn by turn: the byte it reads and the shift it performs on that byte's
bits. The value and the cursor are functions of these turns.

* `UlebTurn`, `readUleb128Turns`; `readUleb128_eq_foldl`: the result from the turns;
  `readUleb128Turns_eq_range`: the bytes are consecutive and the shift grows by seven.
* `lt_length_readUleb128Turns_iff`: which turns there are; `offset_of_mem_readUleb128Turns`: only
  bytes of the range are read.
* `readUleb128_congr`: the result depends on the bytes read only.
* **`readUleb128_spec`**: encodings are read back, and no read and no cursor leaves the range.
* **`readUleb128_shifts_iff`**: when all shifts are by fewer than 64 bits.
-/

namespace Maloader

open ByteLib

/-! ## The turns -/

/-- A turn of the loop: the offset of the byte it reads and the shift of that byte's bits. -/
structure UlebTurn where
  offset : ℕ
  bit : ℕ
  deriving DecidableEq

/-- The turns of `readUleb128Loop`. -/
def readUleb128LoopTurns (f : File) : ℕ → ℕ → ℕ → List UlebTurn
  | 0, _, _ => []
  | n + 1, p, bit =>
    ⟨p, bit⟩ ::
      if byteAt f p &&& 0x80#8 = 0#8 then [] else readUleb128LoopTurns f n (p + 1) (bit + 7)

/-- The turns of `readUleb128`. -/
def readUleb128Turns (f : File) (p stop : ℕ) : List UlebTurn :=
  readUleb128LoopTurns f (stop - p) p 0

/-- `result |= ((uint64_t)(byte & 0x7f)) << bit`. -/
def ulebAccumulate (E : Env) (f : File) (result : BitVec 64) (turn : UlebTurn) : BitVec 64 :=
  result ||| shl64 E ((byteAt f turn.offset &&& 0x7f#8).zeroExtend 64) turn.bit

variable (E : Env) (f : File)

theorem readUleb128Loop_eq_foldl (n p : ℕ) (r : BitVec 64) (bit : ℕ) :
    readUleb128Loop E f n p r bit =
      ((readUleb128LoopTurns f n p bit).foldl (ulebAccumulate E f) r,
        p + (readUleb128LoopTurns f n p bit).length) := by
  induction n generalizing p r bit with
  | zero => rfl
  | succ n ih =>
    rw [readUleb128Loop, readUleb128LoopTurns]
    split_ifs with hlast
    · rfl
    · rw [ih, List.foldl_cons, List.length_cons, Nat.add_assoc, Nat.add_comm 1]
      rfl

/-- **The result of `read_uleb128`** is what its turns accumulate, the cursor behind the last. -/
theorem readUleb128_eq_foldl (p stop : ℕ) :
    readUleb128 E f p stop = ((readUleb128Turns f p stop).foldl (ulebAccumulate E f) 0#64,
      p + (readUleb128Turns f p stop).length) := readUleb128Loop_eq_foldl E f _ _ _ _

theorem readUleb128LoopTurns_eq_range (n p bit : ℕ) :
    readUleb128LoopTurns f n p bit =
      (List.range (readUleb128LoopTurns f n p bit).length).map fun i => ⟨p + i, bit + 7 * i⟩ := by
  induction n generalizing p bit with
  | zero => rfl
  | succ n ih =>
    rw [readUleb128LoopTurns]
    split_ifs with hlast
    · rfl
    · rw [List.length_cons, List.range_succ_eq_map, List.map_cons, List.map_map]
      refine List.cons_eq_cons.mpr ⟨rfl, (ih (p + 1) (bit + 7)).trans ?_⟩
      refine List.map_congr_left fun i _ => ?_
      have hoffset : p + 1 + i = p + (i + 1) := by omega
      have hbit : bit + 7 + 7 * i = bit + 7 * (i + 1) := by omega
      rw [hoffset, hbit]
      rfl

theorem readUleb128Turns_eq_range (p stop : ℕ) :
    readUleb128Turns f p stop =
      (List.range (readUleb128Turns f p stop).length).map fun i => ⟨p + i, 7 * i⟩ := by
  have h := readUleb128LoopTurns_eq_range f (stop - p) p 0
  simp only [Nat.zero_add] at h
  exact h

variable {f}

theorem mem_readUleb128Turns_iff {p stop : ℕ} {turn : UlebTurn} :
    turn ∈ readUleb128Turns f p stop ↔
      ∃ i < (readUleb128Turns f p stop).length, turn = ⟨p + i, 7 * i⟩ := by
  conv_lhs => rw [readUleb128Turns_eq_range]
  simp only [List.mem_map, List.mem_range, eq_comm]

theorem lt_length_readUleb128LoopTurns_iff {n p bit k : ℕ} :
    k < (readUleb128LoopTurns f n p bit).length ↔ k < n ∧ ∀ j < k, continues (byteAt f (p + j)) := by
  induction n generalizing p bit k with
  | zero => simp [readUleb128LoopTurns]
  | succ n ih =>
    rw [readUleb128LoopTurns, List.length_cons]
    cases k with
    | zero => simp
    | succ k =>
      have hhead : (∀ j < k + 1, continues (byteAt f (p + j))) ↔
          continues (byteAt f p) ∧ ∀ j < k, continues (byteAt f (p + 1 + j)) := by
        rw [Nat.forall_lt_succ_left']
        simp only [Nat.add_zero, Nat.add_assoc, Nat.add_comm 1]
      rw [hhead, Nat.add_lt_add_iff_right, Nat.add_lt_add_iff_right]
      split_ifs with hlast
      · simp [continues, hlast]
      · rw [ih]
        exact ⟨fun h => ⟨h.1, hlast, h.2⟩, fun h => ⟨h.1, h.2.2⟩⟩

/-- **Which turns there are**: one for each byte of the range behind continuing bytes only. -/
theorem lt_length_readUleb128Turns_iff {p stop k : ℕ} :
    k < (readUleb128Turns f p stop).length ↔
      k < stop - p ∧ ∀ j < k, continues (byteAt f (p + j)) := lt_length_readUleb128LoopTurns_iff

theorem length_readUleb128Turns_le (p stop : ℕ) :
    (readUleb128Turns f p stop).length ≤ stop - p := by
  by_contra h
  exact absurd (lt_length_readUleb128Turns_iff.mp (Nat.lt_of_not_le h)).1 (lt_irrefl _)

theorem offset_of_mem_readUleb128Turns {p stop : ℕ} {turn : UlebTurn}
    (hturn : turn ∈ readUleb128Turns f p stop) : p ≤ turn.offset ∧ turn.offset < stop := by
  obtain ⟨i, hi, rfl⟩ := mem_readUleb128Turns_iff.mp hturn
  have := length_readUleb128Turns_le (f := f) p stop
  dsimp only
  omega

theorem readUleb128_snd_eq (p stop : ℕ) :
    (readUleb128 E f p stop).2 = p + (readUleb128Turns f p stop).length := by
  rw [readUleb128_eq_foldl]

theorem readUleb128_snd_le {p stop : ℕ} (h : p ≤ stop) : (readUleb128 E f p stop).2 ≤ stop := by
  have := length_readUleb128Turns_le (f := f) p stop
  rw [readUleb128_snd_eq]
  omega

/-! ## The bytes that matter -/

theorem readUleb128LoopTurns_congr {f g : File} {n p bit : ℕ}
    (h : ∀ turn ∈ readUleb128LoopTurns f n p bit, byteAt g turn.offset = byteAt f turn.offset) :
    readUleb128LoopTurns g n p bit = readUleb128LoopTurns f n p bit := by
  induction n generalizing p bit with
  | zero => rfl
  | succ n ih =>
    rw [readUleb128LoopTurns] at h
    have hhead : byteAt g p = byteAt f p := h ⟨p, bit⟩ List.mem_cons_self
    rw [readUleb128LoopTurns, readUleb128LoopTurns, hhead]
    split_ifs with hlast
    · rfl
    · rw [if_neg hlast] at h
      rw [ih fun turn hturn => h turn (List.mem_cons_of_mem _ hturn)]

/-- **The result depends on the bytes read only.** -/
theorem readUleb128_congr {f g : File} {p stop : ℕ}
    (h : ∀ turn ∈ readUleb128Turns f p stop, byteAt g turn.offset = byteAt f turn.offset) :
    readUleb128 E g p stop = readUleb128 E f p stop := by
  have hturns : readUleb128Turns g p stop = readUleb128Turns f p stop :=
    readUleb128LoopTurns_congr h
  have hfold : (readUleb128Turns f p stop).foldl (ulebAccumulate E g) 0#64 =
      (readUleb128Turns f p stop).foldl (ulebAccumulate E f) 0#64 := by
    refine List.foldl_ext _ _ _ fun r turn hturn => ?_
    rw [ulebAccumulate, ulebAccumulate, h turn hturn]
  rw [readUleb128_eq_foldl, readUleb128_eq_foldl, hturns, hfold]

/-! ## Encodings and the range -/

/-- **Reading a ULEB128 operand.** Any encoding of at most ten bytes of a number below `2 ^ 64` that
ends inside the range gives that number, the cursor right behind it. Whatever the range holds, only
its bytes are read, nothing else has a bearing on the result, and the cursor moves on inside it. -/
theorem readUleb128_spec (E : Env) (f : File) (p stop : ℕ) (hrange : p ≤ stop) :
    (∀ (v : ℕ) (bs : List Byte), v < 2 ^ 64 → IsLeb bs → lebVal bs = v → bs.length ≤ 10 →
        HasAt f p bs → p + bs.length ≤ stop →
        readUleb128 E f p stop = (BitVec.ofNat 64 v, p + bs.length)) ∧
      (∀ turn ∈ readUleb128Turns f p stop, p ≤ turn.offset ∧ turn.offset < stop) ∧
      (∀ g : File, (∀ i, p ≤ i → i < stop → byteAt g i = byteAt f i) →
        readUleb128 E g p stop = readUleb128 E f p stop) ∧
      p ≤ (readUleb128 E f p stop).2 ∧ (readUleb128 E f p stop).2 ≤ stop ∧
      (p < stop → p < (readUleb128 E f p stop).2) := by
  refine ⟨?_, fun _ => offset_of_mem_readUleb128Turns, fun g hsame => ?_, le_readUleb128 E f stop p,
    readUleb128_snd_le E hrange, ?_⟩
  · rintro v bs hv hleb rfl hlength hat hstop
    exact readUleb128_leb ⟨bs, hleb, hlength, hv⟩ hat hstop
  · refine readUleb128_congr E fun turn hturn => ?_
    obtain ⟨hle, hlt⟩ := offset_of_mem_readUleb128Turns hturn
    exact hsame turn.offset hle hlt
  · intro hlt
    have hfirst : 0 < (readUleb128Turns f p stop).length :=
      lt_length_readUleb128Turns_iff.mpr ⟨by omega, fun j hj => absurd hj (Nat.not_lt_zero j)⟩
    rw [readUleb128_snd_eq]
    omega

/-- The delta `-8`, in the ten bytes it takes; another byte follows. -/
theorem readUleb128_spec_negative :
    let bs : List Byte := [0xF8, 0xFF, 0xFF, 0xFF, 0xFF, 0xFF, 0xFF, 0xFF, 0xFF, 0x01]
    readUleb128 Env.plain (0x80#8 :: (bs ++ [0x90])) 1 12 = (-8#64, 11) := by
  intro bs
  have h := readUleb128_spec Env.plain (0x80#8 :: (bs ++ [0x90])) 1 12 (by decide)
  exact h.1 (2 ^ 64 - 8) bs (by decide) (by decide) (by decide) (by decide) (by decide) (by decide)

/-! ## Shifts -/

/-- **All shifts of a read are by fewer than 64 bits** exactly if the range has ten bytes at most or
one of its first ten bytes does not continue. The value is then what the code says, whatever a
longer shift would yield. -/
theorem readUleb128_shifts_iff (f : File) (p stop : ℕ) :
    ((∀ turn ∈ readUleb128Turns f p stop, turn.bit < 64) ↔
      stop - p ≤ 10 ∨ ∃ k < 10, ¬ continues (byteAt f (p + k))) ∧
    ((∀ turn ∈ readUleb128Turns f p stop, turn.bit < 64) →
      ∀ E E' : Env, readUleb128 E f p stop = readUleb128 E' f p stop) := by
  constructor
  · have hlength : (∀ turn ∈ readUleb128Turns f p stop, turn.bit < 64) ↔
        ¬ 10 < (readUleb128Turns f p stop).length := by
      constructor
      · intro h hlt
        exact absurd (h ⟨p + 10, 70⟩ (mem_readUleb128Turns_iff.mpr ⟨10, hlt, rfl⟩))
          (by norm_num)
      · intro h turn hturn
        obtain ⟨i, hi, rfl⟩ := mem_readUleb128Turns_iff.mp hturn
        dsimp only
        omega
    rw [hlength, lt_length_readUleb128Turns_iff, not_and_or, not_lt]
    simp only [not_forall, exists_prop]
  · intro h E E'
    have hfold : (readUleb128Turns f p stop).foldl (ulebAccumulate E f) 0#64 =
        (readUleb128Turns f p stop).foldl (ulebAccumulate E' f) 0#64 := by
      refine List.foldl_ext _ _ _ fun r turn hturn => ?_
      rw [ulebAccumulate, ulebAccumulate, shl64, shl64, if_pos (h turn hturn), if_pos (h turn hturn)]
    rw [readUleb128_eq_foldl, readUleb128_eq_foldl, hfold]

/-- One segment, mapped at `0x5000`. -/
def oneSegment : SegmentTable := oneSegmentContext.segments

/-- A place whose offset takes eleven bytes, and a bind there. -/
def longOperand : File := 0x70#8 :: (List.replicate 10 0x80#8 ++ [0x01#8, 0x90#8])

/-- The eleventh byte is shifted by 70 bits, and where the bind goes depends on what that yields:
nothing is left of the bit, or it wraps round. -/
theorem readUleb128_shift_longOperand :
    (¬ ∀ turn ∈ readUleb128Turns longOperand 1 13, turn.bit < 64) ∧
      bindRecords Env.plain longOperand oneSegment 0 13 = [⟨none, 0x5000#64⟩] ∧
      bindRecords { Env.plain with overshift := fun x bit => x <<< (bit % 64) } longOperand
        oneSegment 0 13 = [⟨none, 0x5040#64⟩] := by
  have hlong : (⟨11, 70⟩ : UlebTurn) ∈ readUleb128Turns longOperand 1 13 := by decide
  exact ⟨fun h => absurd (h _ hlong) (by decide), by decide, by decide⟩

end Maloader
