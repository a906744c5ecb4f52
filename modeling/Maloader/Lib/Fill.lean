import Maloader.Lib.Slots

/-!
# Filling memory a byte at a time

A loop that copies bytes to consecutive addresses, each from a place of its own. Where a source byte
has been written over before it is read, the new byte is copied.

* `fillBytes`: the loop; `filled`: byte `i` of the result, traced back to the memory before.
* **`fillBytes_apply`**: the result, at every address.
* `filled_of_apart`: sources that are not written over; **`filled_behind`**: a pattern that the fill
  starts in.
-/

namespace ByteLib

variable {w : ℕ}

/-- Copy the byte at `src i` to `d + i`, for `i < n` in order. -/
def fillBytes (src : ℕ → BitVec w) (d : BitVec w) (n : ℕ) (m : Mem w) : Mem w :=
  (List.range n).foldl (fun m i => Function.update m (d + BitVec.ofNat w i) (m (src i))) m

/-- Byte `i`: the old byte at its source, or the byte that has been put there. -/
def filled (src : ℕ → BitVec w) (d : BitVec w) (m : Mem w) (i : ℕ) : Byte :=
  if InRange d i (src i) then filled src d m (src i - d).toNat else m (src i)
termination_by i
decreasing_by assumption

theorem fillBytes_succ (src : ℕ → BitVec w) (d : BitVec w) (n : ℕ) (m : Mem w) :
    fillBytes src d (n + 1) m = Function.update (fillBytes src d n m) (d + BitVec.ofNat w n)
      (fillBytes src d n m (src n)) := by
  rw [fillBytes, List.range_succ, List.foldl_append]
  rfl

theorem filled_of_inRange {src : ℕ → BitVec w} {d : BitVec w} {m : Mem w} {i : ℕ}
    (h : InRange d i (src i)) : filled src d m i = filled src d m (src i - d).toNat := by
  rw [filled, if_pos h]

theorem filled_of_not_inRange {src : ℕ → BitVec w} {d : BitVec w} {m : Mem w} {i : ℕ}
    (h : ¬ InRange d i (src i)) : filled src d m i = m (src i) := by
  rw [filled, if_neg h]

/-- **The bytes behind a fill**, for at most one round of the address space. -/
theorem fillBytes_apply (src : ℕ → BitVec w) (d : BitVec w) {n : ℕ} (hn : n ≤ 2 ^ w) (m : Mem w)
    (x : BitVec w) :
    fillBytes src d n m x = if InRange d n x then filled src d m (x - d).toNat else m x := by
  induction n generalizing x with
  | zero => exact (if_neg (Nat.not_lt_zero _)).symm
  | succ n ih =>
    have ih := ih (by omega)
    have hd : (d + BitVec.ofNat w n - d).toNat = n := toNat_add_sub_self d (by omega)
    rw [fillBytes_succ]
    by_cases hx : x = d + BitVec.ofNat w n
    · have hin : InRange d (n + 1) x := by
        rw [InRange, hx, hd]
        exact Nat.lt_succ_self n
      rw [if_pos hin, hx, Function.update_self, hd, ih]
      by_cases hsrc : InRange d n (src n)
      · rw [if_pos hsrc, filled_of_inRange hsrc]
      · rw [if_neg hsrc, filled_of_not_inRange hsrc]
    · have hne : (x - d).toNat ≠ n := fun he => hx (by rw [← he, add_ofNat_toNat_sub])
      have hiff : InRange d (n + 1) x ↔ InRange d n x := by
        rw [InRange, InRange]
        omega
      rw [Function.update_of_ne hx, ih]
      simp only [hiff]

theorem filled_of_apart {src : ℕ → BitVec w} {d : BitVec w} {m : Mem w} {i n : ℕ} (hi : i < n)
    (h : ¬ InRange d n (src i)) : filled src d m i = m (src i) :=
  filled_of_not_inRange fun hin => h (hin.trans hi)

/-- **A fill that starts `k` bytes behind the start of its pattern** of `q` bytes repeats the first `k`
bytes within each `q`. -/
theorem filled_behind (p : BitVec w) {q k n : ℕ} (hq : 0 < q) (hk : 0 < k) (hn : k + n ≤ 2 ^ w)
    (m : Mem w) {i : ℕ} (hi : i < n) :
    filled (fun i => p + BitVec.ofNat w (i % q)) (p + BitVec.ofNat w k) m i =
      m (p + BitVec.ofNat w (i % q % k)) := by
  induction i using Nat.strong_induction_on with
  | _ i ih =>
    have hs : i % q ≤ i := Nat.mod_le i q
    have hdist : (p + BitVec.ofNat w (i % q) - (p + BitVec.ofNat w k)).toNat =
        if k ≤ i % q then i % q - k else 2 ^ w + i % q - k :=
      toNat_offset_sub p (by omega) (by omega)
    by_cases hle : k ≤ i % q
    · -- the source has been overwritten
      rw [if_pos hle] at hdist
      have hin : InRange (p + BitVec.ofNat w k) i (p + BitVec.ofNat w (i % q)) := by
        rw [InRange, hdist]
        omega
      have hlt : i % q - k < q := (Nat.sub_le _ _).trans_lt (Nat.mod_lt i hq)
      rw [filled_of_inRange hin, hdist, ih (i % q - k) (by omega) (by omega), Nat.mod_eq_of_lt hlt,
        Nat.mod_eq_sub_mod hle]
    · -- the source lies in front of the fill
      rw [if_neg hle] at hdist
      have hout : ¬ InRange (p + BitVec.ofNat w k) i (p + BitVec.ofNat w (i % q)) := by
        rw [InRange, hdist]
        omega
      rw [filled_of_not_inRange hout, Nat.mod_eq_of_lt (Nat.not_le.mp hle)]

end ByteLib
