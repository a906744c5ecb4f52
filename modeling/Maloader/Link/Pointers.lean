import Maloader.Chained.Reference

/-!
# Writing chain entries

A pointer is a rebase or a bind; an entry is the pointer's word with the distance to the next one.

* `Pointer`, `Pointer.Fits`, `Pointer.encode`: an entry; `toNat_encode_rebase`, `toNat_encode_bind`: its word.
* `Linked`, `pageWords`: the entries of a page, each with the distance to the next.
* **`chain_pageWords`**: a page with these words is one chain.
-/

namespace Maloader

open ByteLib

/-! ## Entries -/

/-- What an entry of a chain is to become. -/
inductive Pointer
  | rebase (target : ℕ)
  | bind (ordinal : ℕ) (addend : BitVec 8)
  deriving DecidableEq

/-- The fields fit into an entry. -/
def Pointer.Fits : Pointer → Prop
  | .rebase target => target < 2 ^ 36
  | .bind ordinal _ => ordinal < 2 ^ 24

instance Pointer.instDecidableFits : (x : Pointer) → Decidable x.Fits
  | .rebase target => inferInstanceAs (Decidable (target < 2 ^ 36))
  | .bind ordinal _ => inferInstanceAs (Decidable (ordinal < 2 ^ 24))

/-- The entry of a pointer, `next` steps of four bytes in front of the next one. -/
def Pointer.encode (next : ℕ) : Pointer → BitVec 64
  | .rebase target => BitVec.ofNat 64 (target + next * 2 ^ 51)
  | .bind ordinal addend => BitVec.ofNat 64 (ordinal + addend.toNat * 2 ^ 24 + next * 2 ^ 51 + 2 ^ 63)

theorem chained64IsBind_iff_le (raw : BitVec 64) : chained64IsBind raw ↔ 2 ^ 63 ≤ raw.toNat := by
  have hmask : (1#64).toNat = 2 ^ 1 - 1 := rfl
  have hbit : ((raw >>> 63) &&& 1#64).toNat = raw.toNat / 2 ^ 63 % 2 ^ 1 := by
    rw [BitVec.toNat_and, BitVec.toNat_ushiftRight, hmask, Nat.and_two_pow_sub_one_eq_mod,
      Nat.shiftRight_eq_div_pow]
  have hlt := raw.isLt
  have hzero : (raw >>> 63) &&& 1#64 = 0#64 ↔ raw.toNat / 2 ^ 63 % 2 ^ 1 = 0 := by
    rw [← hbit]
    exact BitVec.toNat_eq
  simp only [chained64IsBind, ne_eq, decide_not, Bool.not_eq_eq_eq_not, Bool.not_true,
    decide_eq_false_iff_not, hzero]
  omega

section Fields

variable {next : ℕ} (hnext : next < 2 ^ 12)
include hnext

theorem toNat_encode_rebase {target : ℕ} (h : target < 2 ^ 36) :
    (Pointer.encode next (.rebase target)).toNat = target + next * 2 ^ 51 := by
  rw [Pointer.encode, BitVec.toNat_ofNat]
  omega

theorem toNat_encode_bind {ordinal : ℕ} (addend : BitVec 8) (h : ordinal < 2 ^ 24) :
    (Pointer.encode next (.bind ordinal addend)).toNat =
      ordinal + addend.toNat * 2 ^ 24 + next * 2 ^ 51 + 2 ^ 63 := by
  have := addend.isLt
  rw [Pointer.encode, BitVec.toNat_ofNat]
  omega

theorem chained64Next_encode {x : Pointer} (h : x.Fits) :
    (chained64Next (x.encode next)).toNat = next := by
  have hmask : (0xFFF#64).toNat = 2 ^ 12 - 1 := rfl
  rw [chained64Next, BitVec.toNat_setWidth, BitVec.toNat_and, BitVec.toNat_ushiftRight, hmask,
    Nat.and_two_pow_sub_one_eq_mod, Nat.shiftRight_eq_div_pow]
  cases x with
  | rebase target =>
    rw [toNat_encode_rebase hnext h]
    have h : target < 2 ^ 36 := h
    omega
  | bind ordinal addend =>
    rw [toNat_encode_bind hnext addend h]
    have h : ordinal < 2 ^ 24 := h
    have := addend.isLt
    omega

theorem chained64IsBind_encode_rebase {target : ℕ} (h : target < 2 ^ 36) :
    chained64IsBind (Pointer.encode next (.rebase target)) = false := by
  rw [← Bool.not_eq_true, chained64IsBind_iff_le, toNat_encode_rebase hnext h]
  omega

theorem chained64IsBind_encode_bind {ordinal : ℕ} (addend : BitVec 8) (h : ordinal < 2 ^ 24) :
    chained64IsBind (Pointer.encode next (.bind ordinal addend)) = true := by
  rw [chained64IsBind_iff_le, toNat_encode_bind hnext addend h]
  omega

theorem chained64RebaseTarget_encode {target : ℕ} (h : target < 2 ^ 36) :
    chained64RebaseTarget (Pointer.encode next (.rebase target)) = BitVec.ofNat 64 target := by
  have hmask : (0xFFFFFFFFF#64).toNat = 2 ^ 36 - 1 := rfl
  apply BitVec.eq_of_toNat_eq
  rw [chained64RebaseTarget, BitVec.toNat_and, hmask, Nat.and_two_pow_sub_one_eq_mod,
    toNat_encode_rebase hnext h, BitVec.toNat_ofNat]
  omega

theorem chained64BindOrdinal_encode {ordinal : ℕ} (addend : BitVec 8) (h : ordinal < 2 ^ 24) :
    (chained64BindOrdinal (Pointer.encode next (.bind ordinal addend))).toNat = ordinal := by
  have hmask : (0xFFFFFF#64).toNat = 2 ^ 24 - 1 := rfl
  rw [chained64BindOrdinal, BitVec.toNat_setWidth, BitVec.toNat_and, hmask,
    Nat.and_two_pow_sub_one_eq_mod, toNat_encode_bind hnext addend h]
  omega

theorem chained64BindAddend_encode {ordinal : ℕ} (addend : BitVec 8) (h : ordinal < 2 ^ 24) :
    chained64BindAddend (Pointer.encode next (.bind ordinal addend)) = addend := by
  have hmask : (0xFF#64).toNat = 2 ^ 8 - 1 := rfl
  have hlt := addend.isLt
  apply BitVec.eq_of_toNat_eq
  rw [chained64BindAddend, BitVec.toNat_setWidth, BitVec.toNat_and, BitVec.toNat_ushiftRight, hmask,
    Nat.and_two_pow_sub_one_eq_mod, Nat.shiftRight_eq_div_pow, toNat_encode_bind hnext addend h]
  omega

end Fields

/-! ## Pages -/

/-- The pointers of a page, by their offsets: in order, apart, whole steps from each other. -/
structure LinkedPage (page : List (ℕ × Pointer)) : Prop where
  fits : ∀ x ∈ page, x.2.Fits ∧ x.1 + 8 ≤ 0x1000
  linked : page.IsChain fun x y => x.1 + 8 ≤ y.1 ∧ 4 ∣ y.1 - x.1

instance (page : List (ℕ × Pointer)) : Decidable (LinkedPage page) :=
  decidable_of_iff
    ((∀ x ∈ page, x.2.Fits ∧ x.1 + 8 ≤ 0x1000) ∧
      page.IsChain fun x y => x.1 + 8 ≤ y.1 ∧ 4 ∣ y.1 - x.1)
    ⟨fun h => ⟨h.1, h.2⟩, fun h => ⟨h.fits, h.linked⟩⟩

/-- The entries of a page, each with the distance to the next. -/
def pageWords : List (ℕ × Pointer) → List (ℕ × BitVec 64)
  | [] => []
  | [x] => [(x.1, x.2.encode 0)]
  | x :: y :: page => (x.1, x.2.encode ((y.1 - x.1) / 4)) :: pageWords (y :: page)

theorem LinkedPage.tail {x y : ℕ × Pointer} {page : List (ℕ × Pointer)}
    (h : LinkedPage (x :: y :: page)) :
    (x.1 + 8 ≤ y.1 ∧ 4 ∣ y.1 - x.1) ∧ (y.1 - x.1) / 4 < 2 ^ 12 ∧ LinkedPage (y :: page) := by
  obtain ⟨hxy, hrest⟩ := List.isChain_cons_cons.mp h.linked
  have hy := (h.fits y (by simp)).2
  exact ⟨hxy, by omega, fun z hz => h.fits z (List.mem_cons_of_mem _ hz), hrest⟩

theorem map_fst_pageWords (page : List (ℕ × Pointer)) :
    (pageWords page).map Prod.fst = page.map Prod.fst := by
  induction page with
  | nil => rfl
  | cons x page ih =>
    cases page with
    | nil => rfl
    | cons y page => exact congrArg (x.1 :: ·) ih

theorem forall₂_pageWords {page : List (ℕ × Pointer)} (h : LinkedPage page) :
    List.Forall₂ (fun x s => ∃ next < 2 ^ 12, s = (x.1, x.2.encode next)) page (pageWords page) := by
  induction page with
  | nil => exact .nil
  | cons x page ih =>
    cases page with
    | nil => exact .cons ⟨0, by norm_num, rfl⟩ .nil
    | cons y page =>
      obtain ⟨-, hlt, htail⟩ := h.tail
      exact .cons ⟨_, hlt, rfl⟩ (ih htail)

/-- **A page with these words is one chain** from its first pointer on. -/
theorem chain_pageWords {im : ℕ → Byte} {base : ℕ} {x : ℕ × Pointer} {page : List (ℕ × Pointer)}
    (h : LinkedPage (x :: page))
    (hwords : ∀ s ∈ pageWords (x :: page), word64 im (base + s.1) = s.2) :
    Chain (chainNext im) 8 base (base + 0x1000) (base + x.1)
      ((x :: page).map fun x => base + x.1) := by
  induction page generalizing x with
  | nil =>
    obtain ⟨hfits, hle⟩ := h.fits x (by simp)
    have hnext := chained64Next_encode (by norm_num : 0 < 2 ^ 12) hfits
    refine .last (by omega) (by omega) ?_
    rw [chainNext, hwords _ List.mem_cons_self, hnext]
  | cons y page ih =>
    obtain ⟨⟨hle, hdvd⟩, hlt, htail⟩ := h.tail
    obtain ⟨hfits, hroom⟩ := h.fits x (by simp)
    have hnext : chainNext im (base + x.1) = y.1 - x.1 := by
      rw [chainNext, hwords _ List.mem_cons_self, chained64Next_encode hlt hfits,
        Nat.div_mul_cancel hdvd]
    have hrest := ih htail fun s hs => hwords s (List.mem_cons_of_mem _ hs)
    refine .step (by omega) (by omega) (by omega) (by omega) ?_
    rw [hnext, show base + x.1 + (y.1 - x.1) = base + y.1 by omega]
    exact hrest

end Maloader
