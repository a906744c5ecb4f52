import Maloader.Lib.Fill
import Maloader.Context

/-!
# What binding hands out

Two of the functions of the loader that loaded programs are bound to.

* `hostFlags`, `hostMmapForDarwin`: `mmap` with the Darwin flag for anonymous memory; `hostFlags_spec`.
* `malMemsetPattern16`, **`malMemsetPattern16_spec`**: the pattern fill, whether or not it overlaps
  its pattern.
-/

namespace Maloader

open ByteLib

/-! ## `mmap` -/

/-- `DARWIN_MAP_ANON`. -/
def darwinMapAnon : BitVec 32 := 0x1000#32

/-- The arguments of `mmap`. -/
structure MmapArgs where
  addr : Addr
  length : BitVec 64
  prot : BitVec 32
  flags : BitVec 32
  fd : BitVec 32
  offset : BitVec 64

/-- `host_flags`, over the host's `MAP_ANONYMOUS`. -/
def hostFlags (mapAnonymous flags : BitVec 32) : BitVec 32 :=
  if flags &&& darwinMapAnon ≠ 0#32 then (flags &&& ~~~darwinMapAnon) ||| mapAnonymous else flags

/-- The arguments that the host's `mmap` is called with. -/
def hostMmapForDarwin (mapAnonymous : BitVec 32) (args : MmapArgs) : MmapArgs :=
  { args with flags := hostFlags mapAnonymous args.flags }

/-- **The Darwin flag never reaches the host**, a call that has it is anonymous on the host, and no other
flag changes. -/
theorem hostFlags_spec {mapAnonymous : BitVec 32} (hflag : mapAnonymous &&& darwinMapAnon = 0#32)
    (flags : BitVec 32) :
    hostFlags mapAnonymous flags &&& darwinMapAnon = 0#32 ∧
      hostFlags mapAnonymous flags &&& mapAnonymous =
        (if flags &&& darwinMapAnon ≠ 0#32 then mapAnonymous else flags &&& mapAnonymous) ∧
      ∀ other, other &&& darwinMapAnon = 0#32 → other &&& mapAnonymous = 0#32 →
        hostFlags mapAnonymous flags &&& other = flags &&& other := by
  have hbit : ∀ {a b : BitVec 32}, a &&& b = 0#32 → ∀ i, (a.getLsbD i && b.getLsbD i) = false := by
    intro a b h i
    rw [← BitVec.getLsbD_and, h, BitVec.getLsbD_zero]
  have hflag := hbit hflag
  rw [hostFlags]
  split_ifs with hanon
  · refine ⟨?_, ?_, fun other hdarwin hother => ?_⟩
    · apply BitVec.eq_of_getLsbD_eq
      intro i hi
      have := hflag i
      simp only [BitVec.getLsbD_and, BitVec.getLsbD_or, BitVec.getLsbD_not, BitVec.getLsbD_zero]
      grind
    · apply BitVec.eq_of_getLsbD_eq
      intro i hi
      simp only [BitVec.getLsbD_and, BitVec.getLsbD_or]
      grind
    · apply BitVec.eq_of_getLsbD_eq
      intro i hi
      have hdarwin := hbit hdarwin i
      have hother := hbit hother i
      simp only [BitVec.getLsbD_and, BitVec.getLsbD_or, BitVec.getLsbD_not]
      grind
  · exact ⟨not_not.mp hanon, rfl, fun _ _ _ => rfl⟩

/-! ## `memset_pattern16` -/

/-- `d[i] = p[i & 15]` for `i < len`. -/
def malMemsetPattern16 (m : Mem 64) (dst pattern16 : Addr) (len : BitVec 64) : Mem 64 :=
  (List.range len.toNat).foldl (fun m i =>
    Function.update m (dst + BitVec.ofNat 64 i) (m (pattern16 + BitVec.ofNat 64 (i &&& 15)))) m

theorem malMemsetPattern16_eq (m : Mem 64) (dst pattern16 : Addr) (len : BitVec 64) :
    malMemsetPattern16 m dst pattern16 len =
      fillBytes (fun i => pattern16 + BitVec.ofNat 64 (i % 16)) dst len.toNat m := by
  have hmod : ∀ i : ℕ, i &&& 15 = i % 16 := fun i => Nat.and_two_pow_sub_one_eq_mod i 4
  simp only [malMemsetPattern16, hmod]
  rfl

/-- **The pattern fill**: nothing outside the destination is written. A pattern that the destination
does not touch is repeated every 16 bytes. If the destination starts `k` bytes behind the start of the
pattern, what is repeated is the pattern's first `k` bytes, begun anew every 16 bytes. -/
theorem malMemsetPattern16_spec (m : Mem 64) (dst pattern16 : Addr) (len : BitVec 64) :
    let m' := malMemsetPattern16 m dst pattern16 len
    (∀ x, ¬ InRange dst len.toNat x → m' x = m x) ∧
      ((∀ j < 16, ¬ InRange dst len.toNat (pattern16 + BitVec.ofNat 64 j)) →
        ∀ i < len.toNat, m' (dst + BitVec.ofNat 64 i) = m (pattern16 + BitVec.ofNat 64 (i % 16))) ∧
      ∀ k, 0 < k → k + len.toNat ≤ 2 ^ 64 → dst = pattern16 + BitVec.ofNat 64 k →
        ∀ i < len.toNat, m' (dst + BitVec.ofNat 64 i) =
          m (pattern16 + BitVec.ofNat 64 (i % 16 % k)) := by
  intro m'
  have hlen : len.toNat < 2 ^ 64 := len.isLt
  have hbyte : ∀ x, m' x = if InRange dst len.toNat x then
      filled (fun i => pattern16 + BitVec.ofNat 64 (i % 16)) dst m (x - dst).toNat else m x := by
    intro x
    rw [← fillBytes_apply _ dst hlen.le, ← malMemsetPattern16_eq]
  have hinside : ∀ i < len.toNat, m' (dst + BitVec.ofNat 64 i) =
      filled (fun i => pattern16 + BitVec.ofNat 64 (i % 16)) dst m i := by
    intro i hi
    rw [hbyte, if_pos (inRange_add dst hi hlen.le), toNat_add_sub_self dst (by omega)]
  refine ⟨fun x hx => ?_, fun hapart i hi => ?_, fun k hk hfit hdst i hi => ?_⟩
  · rw [hbyte, if_neg hx]
  · rw [hinside i hi]
    exact filled_of_apart hi (hapart (i % 16) (Nat.mod_lt i (by norm_num)))
  · rw [hinside i hi, hdst]
    exact filled_behind pattern16 (by norm_num) hk hfit m hi

end Maloader
