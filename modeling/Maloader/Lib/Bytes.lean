import Mathlib.Tactic
import Mathlib.Data.BitVec
import Mathlib.Data.List.TakeWhile

/-!
# Byte strings

Little-endian numbers and NUL-terminated strings over lists of bytes.

* `leNat`, `leBytes`: the number a byte list spells and the `n` low bytes of a number;
  **`leNat_leBytes`** and `leBytes_leNat` are the two round trips.
* `byteAt`, `bytesAt`, `HasAt`: reads of a byte list at an offset, `0` behind its end;
  `bytesAt_of_hasAt`, `bytesAt_eq_of_drop`: reads of a piece, and of files with a common end.
* `cstr`: the string in front of the first NUL; `cstr_append_nul`, `cstr_of_hasAt`,
  `cstr_drop_of_hasAt`; `length_cstr_lt_iff`, `cstr_congr`: where a string ends and what it
  depends on.
-/

namespace ByteLib

/-- A byte. -/
abbrev Byte := BitVec 8

/-! ## Little-endian numbers -/

/-- The number whose base-256 digits, lowest first, are `bs`. -/
def leNat : List Byte → ℕ
  | [] => 0
  | b :: bs => b.toNat + 256 * leNat bs

/-- The `n` lowest base-256 digits of `v`. -/
def leBytes : ℕ → ℕ → List Byte
  | 0, _ => []
  | n + 1, v => BitVec.ofNat 8 v :: leBytes n (v / 256)

@[simp] theorem length_leBytes (n v : ℕ) : (leBytes n v).length = n := by
  induction n generalizing v with
  | zero => rfl
  | succ n ih => simp [leBytes, ih]

theorem leNat_lt (bs : List Byte) : leNat bs < 256 ^ bs.length := by
  induction bs with
  | nil => simp [leNat]
  | cons b bs ih =>
    have hb := b.isLt
    rw [leNat, List.length_cons, pow_succ]
    omega

theorem leNat_append (as bs : List Byte) :
    leNat (as ++ bs) = leNat as + 256 ^ as.length * leNat bs := by
  induction as with
  | nil => simp [leNat]
  | cons a as ih =>
    rw [List.cons_append, leNat, leNat, ih, List.length_cons, pow_succ]
    ring

/-- **Writing a number and reading it back keeps its low `n` bytes.** -/
theorem leNat_leBytes (n v : ℕ) : leNat (leBytes n v) = v % 256 ^ n := by
  induction n generalizing v with
  | zero => simp [leBytes, leNat, Nat.mod_one]
  | succ n ih =>
    have hsplit : v % (256 * 256 ^ n) = v % 256 + 256 * (v / 256 % 256 ^ n) := Nat.mod_mul
    rw [leBytes, leNat, ih, BitVec.toNat_ofNat, pow_succ' 256, hsplit]

theorem leBytes_leNat (bs : List Byte) : leBytes bs.length (leNat bs) = bs := by
  induction bs with
  | nil => rfl
  | cons b bs ih =>
    have hb := b.isLt
    have hdiv : (b.toNat + 256 * leNat bs) / 256 = leNat bs := by omega
    have hmod : BitVec.ofNat 8 (b.toNat + 256 * leNat bs) = b := by
      apply BitVec.eq_of_toNat_eq
      rw [BitVec.toNat_ofNat]
      omega
    rw [List.length_cons, leNat, leBytes, hdiv, hmod, ih]

/-! ## Reads at an offset -/

/-- The byte at offset `i`, `0` behind the end. -/
def byteAt (f : List Byte) (i : ℕ) : Byte := f.getD i 0#8

/-- The `n` bytes at offset `p`. -/
def bytesAt (f : List Byte) (p n : ℕ) : List Byte := (List.range n).map fun i => byteAt f (p + i)

theorem bytesAt_add (f : List Byte) (p m n : ℕ) :
    bytesAt f p (m + n) = bytesAt f p m ++ bytesAt f (p + m) n := by
  rw [bytesAt, List.range_add, List.map_append, List.map_map]
  refine congrArg (bytesAt f p m ++ ·) (List.map_congr_left fun i _ => ?_)
  rw [Function.comp_apply, Nat.add_assoc]

theorem byteAt_drop (f : List Byte) (p i : ℕ) : byteAt (f.drop p) i = byteAt f (p + i) := by
  simp [byteAt, List.getElem?_drop]

theorem byteAt_append_left {f g : List Byte} {i : ℕ} (h : i < f.length) :
    byteAt (f ++ g) i = byteAt f i := by
  simp [byteAt, List.getElem?_append_left h]

/-- The bytes `bs` stand at offset `p`. -/
def HasAt (f : List Byte) (p : ℕ) (bs : List Byte) : Prop := bs <+: f.drop p

instance (f : List Byte) (p : ℕ) (bs : List Byte) : Decidable (HasAt f p bs) := by
  unfold HasAt; infer_instance

theorem hasAt_cons {f : List Byte} {p : ℕ} {b : Byte} {bs : List Byte} (h : HasAt f p (b :: bs)) :
    byteAt f p = b ∧ HasAt f (p + 1) bs := by
  obtain ⟨t, ht⟩ := h
  constructor
  · have hb := byteAt_drop f p 0
    rw [← ht, Nat.add_zero] at hb
    exact hb.symm
  · exact ⟨t, by rw [← List.drop_drop, ← ht]; rfl⟩

theorem HasAt.left {f : List Byte} {p : ℕ} {as bs : List Byte} (h : HasAt f p (as ++ bs)) :
    HasAt f p as := (List.prefix_append as bs).trans h

theorem HasAt.right {f : List Byte} {p : ℕ} {as bs : List Byte} (h : HasAt f p (as ++ bs)) :
    HasAt f (p + as.length) bs := by
  obtain ⟨t, ht⟩ := h
  exact ⟨t, by rw [← List.drop_drop, ← ht, List.append_assoc, List.drop_left]⟩

theorem bytesAt_congr {f g : List Byte} {p q n : ℕ} (h : ∀ i < n, byteAt f (p + i) = byteAt g (q + i)) :
    bytesAt f p n = bytesAt g q n :=
  List.map_congr_left fun i hi => h i (List.mem_range.mp hi)

theorem byteAt_of_hasAt {f : List Byte} {p : ℕ} {bs : List Byte} (h : HasAt f p bs) {i : ℕ}
    (hi : i < bs.length) : byteAt f (p + i) = byteAt bs i := by
  obtain ⟨t, ht⟩ := h
  rw [← byteAt_drop, ← ht, byteAt_append_left hi]

theorem bytesAt_of_hasAt {f : List Byte} {p : ℕ} {bs : List Byte} (h : HasAt f p bs) {k n : ℕ}
    (hk : k + n ≤ bs.length) : bytesAt f (p + k) n = bytesAt bs (0 + k) n := by
  refine bytesAt_congr fun i hi => ?_
  rw [Nat.zero_add, Nat.add_assoc]
  exact byteAt_of_hasAt h (by omega)

theorem byteAt_eq_of_drop {f g : List Byte} {n p : ℕ} (h : f.drop n = g.drop n) (hp : n ≤ p) :
    byteAt f p = byteAt g p := by
  obtain ⟨i, rfl⟩ := Nat.exists_eq_add_of_le hp
  rw [← byteAt_drop, h, byteAt_drop]

theorem drop_eq_of_drop {f g : List Byte} {n p : ℕ} (h : f.drop n = g.drop n) (hp : n ≤ p) :
    f.drop p = g.drop p := by
  obtain ⟨i, rfl⟩ := Nat.exists_eq_add_of_le hp
  rw [← List.drop_drop, h, List.drop_drop]

theorem bytesAt_eq_of_drop {f g : List Byte} {n p : ℕ} (h : f.drop n = g.drop n) (hp : n ≤ p) (k : ℕ) :
    bytesAt f p k = bytesAt g p k :=
  bytesAt_congr fun i _ => byteAt_eq_of_drop h (hp.trans (Nat.le_add_right p i))

/-! ## NUL-terminated strings -/

/-- The string at the head of `bs`: everything in front of the first NUL. -/
def cstr (bs : List Byte) : List Byte := bs.takeWhile (· ≠ 0#8)

theorem cstr_append_nul {s : List Byte} (hs : 0#8 ∉ s) (t : List Byte) :
    cstr (s ++ 0#8 :: t) = s := by
  induction s with
  | nil => simp [cstr]
  | cons b s ih =>
    rw [List.mem_cons, not_or] at hs
    have hb : b ≠ 0#8 := fun e => hs.1 e.symm
    simp only [cstr, List.cons_append, List.takeWhile_cons, ne_eq, hb, not_false_eq_true,
      decide_true, if_true, List.cons.injEq, true_and]
    exact ih hs.2

theorem cstr_of_hasAt {f : List Byte} {p : ℕ} {s : List Byte} (hs : 0#8 ∉ s)
    (h : HasAt f p (s ++ [0#8])) : cstr (f.drop p) = s := by
  obtain ⟨t, ht⟩ := h
  rw [← ht, List.append_assoc]
  exact cstr_append_nul hs t

theorem cstr_drop_of_hasAt {f : List Byte} {p : ℕ} {bs : List Byte} (h : HasAt f p bs) {k : ℕ}
    (hk : 0#8 ∈ bs.drop k) : cstr (f.drop (p + k)) = cstr (bs.drop k) := by
  obtain ⟨t, ht⟩ := h
  have hle : k ≤ bs.length := by
    have hlength := List.length_pos_of_mem hk
    rw [List.length_drop] at hlength
    omega
  obtain ⟨s, u, hsplit, hs⟩ := List.eq_append_cons_of_mem hk
  rw [← List.drop_drop, ← ht, List.drop_append_of_le_length hle, hsplit, List.append_assoc,
    cstr_append_nul hs, List.cons_append, cstr_append_nul hs]

theorem cstr_cons {b : Byte} (hb : b ≠ 0#8) (bs : List Byte) : cstr (b :: bs) = b :: cstr bs := by
  simp [cstr, hb]

theorem length_cstr_lt_iff {bs : List Byte} {n : ℕ} :
    (cstr bs).length < n ↔ ∃ i < n, byteAt bs i = 0#8 := by
  induction bs generalizing n with
  | nil => exact ⟨fun h => ⟨0, h, rfl⟩, fun ⟨i, hi, _⟩ => Nat.zero_lt_of_lt hi⟩
  | cons b bs ih =>
    by_cases hb : b = 0#8
    · subst hb
      exact ⟨fun h => ⟨0, h, rfl⟩, fun ⟨i, hi, _⟩ => Nat.zero_lt_of_lt hi⟩
    · rw [cstr_cons hb, List.length_cons]
      cases n with
      | zero => simp
      | succ n =>
        rw [Nat.add_lt_add_iff_right, ih]
        constructor
        · rintro ⟨i, hi, hzero⟩
          exact ⟨i + 1, Nat.succ_lt_succ hi, hzero⟩
        · rintro ⟨i, hi, hzero⟩
          cases i with
          | zero => exact absurd hzero hb
          | succ i => exact ⟨i, Nat.lt_of_succ_lt_succ hi, hzero⟩

theorem byteAt_length_cstr (bs : List Byte) : byteAt bs (cstr bs).length = 0#8 := by
  obtain ⟨i, hi, hzero⟩ := length_cstr_lt_iff.mp (Nat.lt_succ_self (cstr bs).length)
  have hge : (cstr bs).length ≤ i :=
    not_lt.mp fun h => absurd (length_cstr_lt_iff.mpr ⟨i, Nat.lt_succ_self i, hzero⟩) (by omega)
  rwa [Nat.le_antisymm (Nat.le_of_lt_succ hi) hge] at hzero

theorem cstr_eq_bytesAt (bs : List Byte) : cstr bs = bytesAt bs 0 (cstr bs).length := by
  induction bs with
  | nil => rfl
  | cons b bs ih =>
    by_cases hb : b = 0#8
    · subst hb
      rfl
    · rw [cstr_cons hb, List.length_cons, bytesAt, List.range_succ_eq_map, List.map_cons,
        List.map_map]
      conv_lhs => rw [ih]
      refine List.cons_eq_cons.mpr ⟨rfl, List.map_congr_left fun i _ => ?_⟩
      simp only [Nat.zero_add, Function.comp_apply]
      rfl

/-- **A string depends on its bytes and the NUL behind them only.** -/
theorem cstr_congr {as bs : List Byte} (h : ∀ i ≤ (cstr as).length, byteAt bs i = byteAt as i) :
    cstr bs = cstr as := by
  have hle : (cstr bs).length ≤ (cstr as).length := by
    refine Nat.le_of_lt_succ (length_cstr_lt_iff.mpr ⟨(cstr as).length, Nat.lt_succ_self _, ?_⟩)
    rw [h _ le_rfl, byteAt_length_cstr]
  have hge : (cstr as).length ≤ (cstr bs).length := by
    refine Nat.le_of_lt_succ (length_cstr_lt_iff.mpr ⟨(cstr bs).length, Nat.lt_succ_self _, ?_⟩)
    rw [← h _ hle, byteAt_length_cstr]
  rw [cstr_eq_bytesAt bs, cstr_eq_bytesAt as, Nat.le_antisymm hle hge]
  refine bytesAt_congr fun i hi => h _ ?_
  omega

end ByteLib
