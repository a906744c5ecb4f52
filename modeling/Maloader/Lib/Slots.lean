import Maloader.Lib.Memory

/-!
# Writes into slots

A list of writes of `k` bytes each into slots that are equal or apart. Afterwards a slot holds the
last value written to it, or its old content.

* `SlotsApart`, `slotsApart_offset`: slots without a common address.
* `applyWrites`, `lastWrite`: the memory after the writes, and what is left of them in one slot.
* **`loadLE_applyWrites`**, `applyWrites_of_not_inRange`.
-/

namespace ByteLib

variable {w : ℕ}

/-- The `k`-byte slots at `a` and `b` share no address. -/
def SlotsApart (k : ℕ) (a b : BitVec w) : Prop := ∀ x, InRange a k x → ¬ InRange b k x

theorem SlotsApart.symm {k : ℕ} {a b : BitVec w} (h : SlotsApart k a b) : SlotsApart k b a :=
  fun x hb ha => h x ha hb

theorem SlotsApart.ne {k : ℕ} {a b : BitVec w} (h : SlotsApart k a b) (hk : 0 < k) : a ≠ b := by
  rintro rfl
  have ha : InRange a k a := by
    rw [InRange, BitVec.sub_self]
    exact hk
  exact h a ha ha

theorem toNat_add_sub_self (a : BitVec w) {i : ℕ} (hi : i < 2 ^ w) :
    (a + BitVec.ofNat w i - a).toNat = i := by
  have h : a + BitVec.ofNat w i - a = BitVec.ofNat w i := by ring
  rw [h, BitVec.toNat_ofNat, Nat.mod_eq_of_lt hi]

theorem inRange_add (a : BitVec w) {i k : ℕ} (hi : i < k) (hk : k ≤ 2 ^ w) :
    InRange a k (a + BitVec.ofNat w i) := by
  rw [InRange, toNat_add_sub_self a (by omega)]
  exact hi

theorem add_ofNat_toNat_sub (B x : BitVec w) : B + BitVec.ofNat w (x - B).toNat = x := by
  rw [BitVec.ofNat_toNat, BitVec.setWidth_eq]
  ring

theorem slotsApart_offset (B : BitVec w) {k o o' : ℕ} (ho : o + k ≤ 2 ^ w) (ho' : o' + k ≤ 2 ^ w)
    (hk : 0 < k) (h : o + k ≤ o' ∨ o' + k ≤ o) :
    SlotsApart k (B + BitVec.ofNat w o) (B + BitVec.ofNat w o') := by
  intro x hx hx'
  rw [← add_ofNat_toNat_sub B x] at hx hx'
  rw [inRange_offset_iff B (BitVec.isLt _) (by omega) ho] at hx
  rw [inRange_offset_iff B (BitVec.isLt _) (by omega) ho'] at hx'
  omega

/-! ## One word -/

theorem loadLE_congr {m m' : Mem w} {a : BitVec w} {k : ℕ}
    (h : ∀ i < k, m (a + BitVec.ofNat w i) = m' (a + BitVec.ofNat w i)) :
    loadLE m a k = loadLE m' a k := by
  rw [loadLE, loadLE, List.map_congr_left fun i hi => h i (List.mem_range.mp hi)]

theorem loadLE_storeLE_self (m : Mem w) (a : BitVec w) {k : ℕ} (hk : k ≤ 2 ^ w) (v : ℕ) :
    loadLE (storeLE m a k v) a k = v % 256 ^ k := by
  have hmap : (List.range k).map (fun i => storeLE m a k v (a + BitVec.ofNat w i)) = leBytes k v := by
    rw [List.map_congr_left (g := byteAt (leBytes k v)) fun i hi => ?_]
    · simpa using map_byteAt_range (leBytes k v)
    · have hi := List.mem_range.mp hi
      rw [storeLE, overlay_of_inRange (inRange_add a hi hk), toNat_add_sub_self a (by omega)]
  rw [loadLE, hmap, leNat_leBytes]

theorem loadLE_storeLE_of_apart (m : Mem w) {a b : BitVec w} {k : ℕ} (hk : k ≤ 2 ^ w) (v : ℕ)
    (h : SlotsApart k a b) : loadLE (storeLE m b k v) a k = loadLE m a k :=
  loadLE_congr fun _ hi => overlay_of_not_inRange (h _ (inRange_add a hi hk))

/-! ## Many writes -/

/-- The memory after the writes `(address, value)`, in order. -/
def applyWrites (k : ℕ) (m : Mem w) (ws : List (BitVec w × ℕ)) : Mem w :=
  ws.foldl (fun m s => storeLE m s.1 k s.2) m

/-- The value last written at `a`. -/
def lastWrite (ws : List (BitVec w × ℕ)) (a : BitVec w) : Option ℕ :=
  ws.foldl (fun acc s => if s.1 = a then some s.2 else acc) none

theorem foldl_lastWrite (ws : List (BitVec w × ℕ)) (a : BitVec w) (acc : Option ℕ) :
    ws.foldl (fun acc s => if s.1 = a then some s.2 else acc) acc = (lastWrite ws a).or acc := by
  induction ws generalizing acc with
  | nil => rfl
  | cons s ws ih =>
    rw [lastWrite, List.foldl_cons, List.foldl_cons, ih, ih (if s.1 = a then some s.2 else none)]
    split_ifs <;> simp

theorem lastWrite_cons (s : BitVec w × ℕ) (ws : List (BitVec w × ℕ)) (a : BitVec w) :
    lastWrite (s :: ws) a = (lastWrite ws a).or (if s.1 = a then some s.2 else none) :=
  foldl_lastWrite ws a _

theorem lastWrite_append (ws ws' : List (BitVec w × ℕ)) (a : BitVec w) :
    lastWrite (ws ++ ws') a = (lastWrite ws' a).or (lastWrite ws a) := by
  rw [lastWrite, List.foldl_append, foldl_lastWrite, lastWrite, lastWrite]

theorem lastWrite_eq_none {ws : List (BitVec w × ℕ)} {a : BitVec w} (h : ∀ s ∈ ws, s.1 ≠ a) :
    lastWrite ws a = none := by
  induction ws with
  | nil => rfl
  | cons s ws ih =>
    rw [lastWrite_cons, ih fun s' hs' => h s' (List.mem_cons_of_mem _ hs'),
      if_neg (h s List.mem_cons_self)]
    rfl

theorem lastWrite_ne_none {ws : List (BitVec w × ℕ)} {s : BitVec w × ℕ} (h : s ∈ ws) :
    lastWrite ws s.1 ≠ none := by
  induction ws with
  | nil => simp at h
  | cons s' ws ih =>
    rw [lastWrite_cons]
    rcases List.mem_cons.mp h with rfl | h
    · simp
    · exact fun he => ih h (Option.or_eq_none_iff.mp he).1

theorem lastWrite_of_mem {ws : List (BitVec w × ℕ)} {s : BitVec w × ℕ} (hs : s ∈ ws)
    (hn : ws.Pairwise fun x y => x.1 ≠ y.1) : lastWrite ws s.1 = some s.2 := by
  induction ws with
  | nil => simp at hs
  | cons s' ws ih =>
    rw [List.pairwise_cons] at hn
    rw [lastWrite_cons]
    rcases List.mem_cons.mp hs with rfl | hs
    · rw [lastWrite_eq_none fun s' hs' => (hn.1 s' hs').symm, if_pos rfl]
      rfl
    · rw [ih hs hn.2]
      rfl

theorem applyWrites_append (k : ℕ) (m : Mem w) (ws ws' : List (BitVec w × ℕ)) :
    applyWrites k m (ws ++ ws') = applyWrites k (applyWrites k m ws) ws' := List.foldl_append

/-- **A slot holds the value last written to it**, or its old one. -/
theorem loadLE_applyWrites {k : ℕ} (hk : k ≤ 2 ^ w) (m : Mem w) {ws : List (BitVec w × ℕ)}
    {a : BitVec w} (h : ∀ s ∈ ws, s.1 = a ∨ SlotsApart k s.1 a) :
    loadLE (applyWrites k m ws) a k = (lastWrite ws a).elim (loadLE m a k) (· % 256 ^ k) := by
  induction ws generalizing m with
  | nil => rfl
  | cons s ws ih =>
    have hrest := ih (storeLE m s.1 k s.2) fun s' hs' => h s' (List.mem_cons_of_mem _ hs')
    rw [applyWrites, List.foldl_cons]
    rw [applyWrites] at hrest
    rw [hrest, lastWrite_cons]
    cases lastWrite ws a with
    | some v => rfl
    | none =>
      by_cases hs : s.1 = a
      · rw [if_pos hs, ← hs]
        exact loadLE_storeLE_self m s.1 hk s.2
      · rw [if_neg hs]
        exact loadLE_storeLE_of_apart m hk s.2 ((h s List.mem_cons_self).resolve_left hs).symm

theorem applyWrites_of_not_inRange {k : ℕ} (m : Mem w) {ws : List (BitVec w × ℕ)} {x : BitVec w}
    (h : ∀ s ∈ ws, ¬ InRange s.1 k x) : applyWrites k m ws x = m x := by
  induction ws generalizing m with
  | nil => rfl
  | cons s ws ih =>
    have hrest := ih (storeLE m s.1 k s.2) fun s' hs' => h s' (List.mem_cons_of_mem _ hs')
    rw [applyWrites, List.foldl_cons]
    rw [applyWrites] at hrest
    rw [hrest]
    exact overlay_of_not_inRange (h s List.mem_cons_self)

end ByteLib
