import Maloader.Lib.Slots

/-!
# Images put together from patches

A list of patches is written into a memory relative to a base address. If the patches are disjoint
their order is irrelevant: a covered offset holds its patch's byte, any other one its old byte.

* `Patch`, `paintAll`, `overlayAll`: patches, on an image and in a memory.
* **`view_overlayAll`**: the two agree; `overlayAll_of_le`: nothing is written outside.
* **`paintAll_of_covers`**, `paintAll_of_not_covers`.
-/

namespace ByteLib

variable {w : ℕ}

/-- The bytes `content` of number `size` to be put at offset `dest`. -/
structure Patch where
  dest : ℕ
  size : ℕ
  content : ℕ → Byte

/-- The patch writes to offset `o`. -/
def Patch.Covers (p : Patch) (o : ℕ) : Prop := p.dest ≤ o ∧ o < p.dest + p.size

/-- The two patches write to no common offset. -/
def Patch.Disjoint (p q : Patch) : Prop := p.dest + p.size ≤ q.dest ∨ q.dest + q.size ≤ p.dest

/-- The image with the patches put in, in order. -/
def paintAll (im : ℕ → Byte) (ps : List Patch) : ℕ → Byte :=
  ps.foldl (fun im p => paint im p.dest p.size p.content) im

/-- The memory with the patches put in from base address `B` on, in order. -/
def overlayAll (m : Mem w) (B : BitVec w) (ps : List Patch) : Mem w :=
  ps.foldl (fun m p => overlay m (B + BitVec.ofNat w p.dest) p.size p.content) m

theorem paintAll_cons (im : ℕ → Byte) (p : Patch) (ps : List Patch) :
    paintAll im (p :: ps) = paintAll (paint im p.dest p.size p.content) ps := rfl

theorem overlayAll_cons (m : Mem w) (B : BitVec w) (p : Patch) (ps : List Patch) :
    overlayAll m B (p :: ps) =
      overlayAll (overlay m (B + BitVec.ofNat w p.dest) p.size p.content) B ps := rfl

theorem paintAll_congr {im im' : ℕ → Byte} {o : ℕ} (h : im o = im' o) (ps : List Patch) :
    paintAll im ps o = paintAll im' ps o := by
  induction ps generalizing im im' with
  | nil => exact h
  | cons p ps ih =>
    rw [paintAll_cons, paintAll_cons]
    refine ih ?_
    unfold paint
    split_ifs
    · rfl
    · exact h

/-- **Seen from the base address, patches in memory are patches of the image.** -/
theorem view_overlayAll (m : Mem w) (B : BitVec w) {ps : List Patch} {o : ℕ} (ho : o < 2 ^ w)
    (hps : ∀ p ∈ ps, p.dest < 2 ^ w ∧ p.dest + p.size ≤ 2 ^ w) :
    view (overlayAll m B ps) B o = paintAll (view m B) ps o := by
  induction ps generalizing m with
  | nil => rfl
  | cons p ps ih =>
    have hp := hps p List.mem_cons_self
    rw [overlayAll_cons, paintAll_cons, ih _ fun q hq => hps q (List.mem_cons_of_mem _ hq)]
    exact paintAll_congr (view_overlay m B p.content ho hp.1 hp.2) ps

theorem overlayAll_of_le (m : Mem w) (B : BitVec w) {ps : List Patch} {n : ℕ} {x : BitVec w}
    (hx : n ≤ (x - B).toNat)
    (hps : ∀ p ∈ ps, p.dest < 2 ^ w ∧ p.dest + p.size ≤ n) : overlayAll m B ps x = m x := by
  induction ps generalizing m with
  | nil => rfl
  | cons p ps ih =>
    have hp := hps p List.mem_cons_self
    rw [overlayAll_cons, ih _ fun q hq => hps q (List.mem_cons_of_mem _ hq)]
    have hlt := (x - B).isLt
    refine overlay_of_not_inRange fun hin => ?_
    rw [← add_ofNat_toNat_sub B x, inRange_offset_iff B (BitVec.isLt _) hp.1 (by omega)] at hin
    omega

theorem paintAll_of_not_covers {im : ℕ → Byte} {ps : List Patch} {o : ℕ}
    (h : ∀ p ∈ ps, ¬ p.Covers o) : paintAll im ps o = im o := by
  induction ps generalizing im with
  | nil => rfl
  | cons p ps ih =>
    rw [paintAll_cons, ih fun q hq => h q (List.mem_cons_of_mem _ hq),
      paint_of_notMem (h p List.mem_cons_self)]

/-- **A covered offset holds the byte of its patch**, wherever the patch stands in the list. -/
theorem paintAll_of_covers {im : ℕ → Byte} {ps : List Patch} (hd : ps.Pairwise Patch.Disjoint)
    {p : Patch} (hp : p ∈ ps) {o : ℕ} (ho : p.Covers o) :
    paintAll im ps o = p.content (o - p.dest) := by
  induction ps generalizing im with
  | nil => simp at hp
  | cons q ps ih =>
    rw [List.pairwise_cons] at hd
    rw [paintAll_cons]
    rcases List.mem_cons.mp hp with rfl | hp
    · rw [paintAll_of_not_covers fun r hr hcov => ?_, paint_of_mem ho]
      have := hd.1 r hr
      unfold Patch.Disjoint at this
      unfold Patch.Covers at ho hcov
      omega
    · exact ih hd.2 hp

end ByteLib
