import Maloader.Lib.Memory

/-!
# Reading back what has been written into a file

Records are numbers one behind the other; a table has numbers of one width; pieces of different lengths
are found by an offset.

* `HasAt.take`: a piece as the bytes at its place.
* **`HasAt.number`**: the number at the head of a record, and the rest of the record.
* `HasAt.table`: an entry of a table.
* `blobOffset`, `HasAt.blob`: a piece among others.
-/

namespace ByteLib

variable {f : List Byte} {p : ℕ}

theorem HasAt.take {bs : List Byte} (h : HasAt f p bs) : bytesAt f p bs.length = bs := by
  have hread := bytesAt_of_hasAt h (k := 0) (n := bs.length) (by omega)
  rw [Nat.add_zero] at hread
  rw [hread, bytesAt]
  simpa using map_byteAt_range bs

/-- **The number at the head of a record**, and the rest. -/
theorem HasAt.number {k v : ℕ} {t : List Byte} (h : HasAt f p (leBytes k v ++ t)) :
    leNat (bytesAt f p k) = v % 256 ^ k ∧ HasAt f (p + k) t := by
  have hnext := h.right
  rw [length_leBytes] at hnext
  have hread := h.left.take
  rw [length_leBytes] at hread
  exact ⟨by rw [hread, leNat_leBytes], hnext⟩

theorem HasAt.table {k : ℕ} {vs : List ℕ} (h : HasAt f p (vs.flatMap (leBytes k))) {i : ℕ}
    (hi : i < vs.length) : leNat (bytesAt f (p + k * i) k) = vs[i] % 256 ^ k := by
  induction vs generalizing p i with
  | nil => exact absurd hi (Nat.not_lt_zero i)
  | cons v vs ih =>
    obtain ⟨hv, hrest⟩ := HasAt.number (List.flatMap_cons ▸ h)
    cases i with
    | zero => simpa using hv
    | succ i =>
      have hi : i < vs.length := Nat.lt_of_succ_lt_succ hi
      have hread := ih hrest hi
      rw [show p + k * (i + 1) = p + k + k * i by ring]
      simpa using hread

theorem length_flatMap_leBytes (k : ℕ) (vs : List ℕ) :
    (vs.flatMap (leBytes k)).length = k * vs.length := by
  rw [List.length_flatMap]
  simp [Nat.mul_comm]

/-! ## Pieces of different lengths -/

/-- Where piece `i` begins. -/
def blobOffset (bs : List (List Byte)) (i : ℕ) : ℕ := (bs.take i).flatten.length

theorem blobOffset_succ (b : List Byte) (bs : List (List Byte)) (i : ℕ) :
    blobOffset (b :: bs) (i + 1) = b.length + blobOffset bs i := by
  rw [blobOffset, List.take_succ_cons, List.flatten_cons, List.length_append, blobOffset]

theorem HasAt.blob {bs : List (List Byte)} (h : HasAt f p bs.flatten) {i : ℕ} (hi : i < bs.length) :
    HasAt f (p + blobOffset bs i) bs[i] := by
  induction bs generalizing p i with
  | nil => exact absurd hi (Nat.not_lt_zero i)
  | cons b bs ih =>
    rw [List.flatten_cons] at h
    cases i with
    | zero => exact h.left
    | succ i =>
      have hi : i < bs.length := Nat.lt_of_succ_lt_succ hi
      have hread := ih h.right hi
      rwa [blobOffset_succ, ← Nat.add_assoc]

theorem blobOffset_add_le {bs : List (List Byte)} {i : ℕ} (hi : i < bs.length) :
    blobOffset bs i + bs[i].length ≤ bs.flatten.length := by
  induction bs generalizing i with
  | nil => exact absurd hi (Nat.not_lt_zero i)
  | cons b bs ih =>
    rw [List.flatten_cons, List.length_append]
    cases i with
    | zero =>
      rw [List.getElem_cons_zero]
      exact (Nat.zero_add _).trans_le (Nat.le_add_right _ _)
    | succ i =>
      have hi : i < bs.length := Nat.lt_of_succ_lt_succ hi
      have hle := ih hi
      rw [blobOffset_succ, List.getElem_cons_succ]
      omega

end ByteLib
