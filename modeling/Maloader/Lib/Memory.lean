import Maloader.Lib.Bytes

/-!
# Byte memories

A memory maps `w`-bit addresses to bytes. Everything written is an `overlay`: `n` bytes from an
address on, wrapping at `2 ^ w` as pointer arithmetic does. Seen from a base address a memory is an
*image*, a function of the offset; there an overlay is a `paint`, and wrapping is gone.

* `InRange`, `overlay`: what a write covers; `eqOn_overlay`: memories alike on a set of addresses.
* `loadLE`, `storeLE`: little-endian words.
* `view`, `paint`, `word`: images; **`view_overlay`** and `loadLE_eq_word` connect the two levels.
-/

namespace ByteLib

variable {w : ℕ}

/-- A memory over `w`-bit addresses. -/
abbrev Mem (w : ℕ) := BitVec w → Byte

/-- Address `x` is one of the `n` addresses from `a` on. -/
def InRange (a : BitVec w) (n : ℕ) (x : BitVec w) : Prop := (x - a).toNat < n

instance (a : BitVec w) (n : ℕ) (x : BitVec w) : Decidable (InRange a n x) := by
  unfold InRange; infer_instance

/-- Write `n` bytes from `a` on; byte `i` of them is `g i`. -/
def overlay (m : Mem w) (a : BitVec w) (n : ℕ) (g : ℕ → Byte) : Mem w :=
  fun x => if InRange a n x then g (x - a).toNat else m x

theorem overlay_of_inRange {m : Mem w} {a : BitVec w} {n : ℕ} {g : ℕ → Byte} {x : BitVec w}
    (h : InRange a n x) : overlay m a n g x = g (x - a).toNat := if_pos h

theorem overlay_of_not_inRange {m : Mem w} {a : BitVec w} {n : ℕ} {g : ℕ → Byte} {x : BitVec w}
    (h : ¬ InRange a n x) : overlay m a n g x = m x := if_neg h

theorem eqOn_overlay {m m' : Mem w} {F : Set (BitVec w)} (hm : Set.EqOn m m' F) {a : BitVec w} {n : ℕ}
    {g g' : ℕ → Byte} (hg : ∀ x ∈ F, InRange a n x → g (x - a).toNat = g' (x - a).toNat) :
    Set.EqOn (overlay m a n g) (overlay m' a n g') F := by
  intro x hx
  by_cases h : InRange a n x
  · rw [overlay_of_inRange h, overlay_of_inRange h]
    exact hg x hx h
  · rw [overlay_of_not_inRange h, overlay_of_not_inRange h]
    exact hm hx

theorem eqOn_overlay_compl (m : Mem w) {F : Set (BitVec w)} {a : BitVec w} {n : ℕ} (g : ℕ → Byte)
    (hF : ∀ x, InRange a n x → x ∈ F) : Set.EqOn (overlay m a n g) m (compl F) :=
  fun _ hx => overlay_of_not_inRange fun h => hx (hF _ h)

/-! ## Words -/

/-- The `k`-byte little-endian number at `a`. -/
def loadLE (m : Mem w) (a : BitVec w) (k : ℕ) : ℕ :=
  leNat ((List.range k).map fun i => m (a + BitVec.ofNat w i))

/-- Write the `k` low bytes of `v` at `a`. -/
def storeLE (m : Mem w) (a : BitVec w) (k v : ℕ) : Mem w := overlay m a k (byteAt (leBytes k v))

/-! ## Images -/

/-- The memory as seen from base address `B`. -/
def view (m : Mem w) (B : BitVec w) : ℕ → Byte := fun o => m (B + BitVec.ofNat w o)

/-- Put `n` bytes at offset `d` of an image. -/
def paint (im : ℕ → Byte) (d n : ℕ) (g : ℕ → Byte) : ℕ → Byte :=
  fun o => if d ≤ o ∧ o < d + n then g (o - d) else im o

/-- The `k`-byte little-endian number at offset `o` of an image. -/
def word (im : ℕ → Byte) (o k : ℕ) : ℕ := leNat ((List.range k).map fun i => im (o + i))

theorem add_ofNat_add (B : BitVec w) (o i : ℕ) :
    B + BitVec.ofNat w o + BitVec.ofNat w i = B + BitVec.ofNat w (o + i) := by
  rw [BitVec.add_assoc, ← BitVec.ofNat_add]

theorem toNat_offset_sub (B : BitVec w) {o d : ℕ} (ho : o < 2 ^ w) (hd : d < 2 ^ w) :
    (B + BitVec.ofNat w o - (B + BitVec.ofNat w d)).toNat = if d ≤ o then o - d else 2 ^ w + o - d := by
  have hcancel : B + BitVec.ofNat w o - (B + BitVec.ofNat w d) =
      BitVec.ofNat w o - BitVec.ofNat w d := by ring
  rw [hcancel, BitVec.toNat_sub, BitVec.toNat_ofNat, BitVec.toNat_ofNat, Nat.mod_eq_of_lt ho,
    Nat.mod_eq_of_lt hd]
  split_ifs with h
  · rw [show 2 ^ w - d + o = o - d + 2 ^ w by omega, Nat.add_mod_right, Nat.mod_eq_of_lt (by omega)]
  · rw [Nat.mod_eq_of_lt (by omega)]
    omega

theorem inRange_offset_iff (B : BitVec w) {o d n : ℕ} (ho : o < 2 ^ w) (hd : d < 2 ^ w)
    (hn : d + n ≤ 2 ^ w) :
    InRange (B + BitVec.ofNat w d) n (B + BitVec.ofNat w o) ↔ d ≤ o ∧ o < d + n := by
  rw [InRange, toNat_offset_sub B ho hd]
  split_ifs with h <;> omega

/-- **A write below the top of the address space is a paint of the image.** -/
theorem view_overlay (m : Mem w) (B : BitVec w) {o d n : ℕ} (g : ℕ → Byte) (ho : o < 2 ^ w)
    (hd : d < 2 ^ w) (hn : d + n ≤ 2 ^ w) :
    view (overlay m (B + BitVec.ofNat w d) n g) B o = paint (view m B) d n g o := by
  unfold view paint
  by_cases h : d ≤ o ∧ o < d + n
  · rw [overlay_of_inRange ((inRange_offset_iff B ho hd hn).mpr h), if_pos h,
      toNat_offset_sub B ho hd, if_pos h.1]
  · rw [overlay_of_not_inRange (mt (inRange_offset_iff B ho hd hn).mp h), if_neg h]

theorem loadLE_eq_word (m : Mem w) (B : BitVec w) (o k : ℕ) :
    loadLE m (B + BitVec.ofNat w o) k = word (view m B) o k := by
  simp only [loadLE, word, view, add_ofNat_add]

theorem paint_of_mem {im : ℕ → Byte} {d n o : ℕ} {g : ℕ → Byte} (h : d ≤ o ∧ o < d + n) :
    paint im d n g o = g (o - d) := if_pos h

theorem paint_of_notMem {im : ℕ → Byte} {d n o : ℕ} {g : ℕ → Byte} (h : ¬ (d ≤ o ∧ o < d + n)) :
    paint im d n g o = im o := if_neg h

theorem word_congr {im im' : ℕ → Byte} {o o' k : ℕ} (h : ∀ i < k, im (o + i) = im' (o' + i)) :
    word im o k = word im' o' k := by
  rw [word, word, List.map_congr_left fun i hi => h i (List.mem_range.mp hi)]

theorem eq_of_word_eq {im im' : ℕ → Byte} {o o' k : ℕ} (h : word im o k = word im' o' k) {i : ℕ}
    (hi : i < k) : im (o + i) = im' (o' + i) := by
  have hbytes : (List.range k).map (fun i => im (o + i)) =
      (List.range k).map fun i => im' (o' + i) := by
    have h1 := leBytes_leNat ((List.range k).map fun i => im (o + i))
    have h2 := leBytes_leNat ((List.range k).map fun i => im' (o' + i))
    rw [word, word] at h
    rw [← h1, ← h2, h]
    simp
  exact List.map_inj_left.mp hbytes i (List.mem_range.mpr hi)

theorem map_byteAt_range (bs : List Byte) : (List.range bs.length).map (byteAt bs) = bs := by
  apply List.ext_getElem
  · simp
  · intro i h1 h2
    simp [byteAt, List.getElem?_eq_getElem h2]

end ByteLib
