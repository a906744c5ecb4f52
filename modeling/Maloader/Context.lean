import Maloader.MachO

/-!
# The loader's state

`MachContext` is `mach_context` together with the process memory and two logs: the `mmap` calls made
so far and the accesses to the image. The logs change nothing; they make *what was touched* a thing
one can state.

* `Env`: what lies outside the source: `mmap`, the import resolver, and the value of a shift C
  leaves undefined.
* `SegmentTable`: the recorded segments, never more than `machLoaderMaxSegments`.
-/

namespace Maloader

open ByteLib

/-- One call of `mmap`; `none` is `MAP_FAILED`. -/
structure MmapCall where
  addr : Addr
  length : BitVec 64
  result : Option Addr
  deriving DecidableEq

/-- The surroundings of a run. -/
structure Env where
  /-- The answer of `mmap` after the calls made so far. -/
  mmap : List MmapCall → Addr → BitVec 64 → Option Addr
  /-- The import resolver; `0` when the name does not resolve. -/
  resolve : CString → Addr
  /-- What a 64-bit left shift by 64 or more yields. -/
  overshift : BitVec 64 → ℕ → BitVec 64

/-- Surroundings in which `mmap` grants the hint and no name resolves. -/
def Env.plain : Env where
  mmap _ addr _ := some addr
  resolve _ := 0#64
  overshift _ _ := 0#64

/-- An access to the image. -/
inductive Event
  /-- `memcpy` of `n` file bytes at `src` to `dest`. -/
  | copy (dest : Addr) (src n : ℕ)
  /-- A chain entry of a segment is read at `loc`. -/
  | fixup (segment : ℕ) (loc : Addr) (raw : BitVec 64)
  /-- An 8-byte store. -/
  | store (loc : Addr) (value : BitVec 64)
  deriving DecidableEq

/-- `struct segment_info`. -/
structure SegmentInfo where
  segname : List Byte
  vmaddr : Addr
  vmsize : BitVec 64
  mappedAddr : Addr
  deriving DecidableEq

/-- `MACH_LOADER_MAX_SEGMENTS`. -/
def machLoaderMaxSegments : ℕ := 32

/-- The filled part of `segments`; its length is `n_segment_info`. -/
structure SegmentTable where
  recs : List SegmentInfo
  length_le : recs.length ≤ machLoaderMaxSegments

/-- Record a segment while there is room. -/
def SegmentTable.push (t : SegmentTable) (s : SegmentInfo) : SegmentTable :=
  if h : t.recs.length < machLoaderMaxSegments then
    ⟨t.recs ++ [s], by rw [List.length_append]; exact h⟩
  else t

/-- `struct bind_info`: a slot, and the name it is bound to; `none` is a name at `NULL`. -/
structure BindInfo where
  funcName : Option CString
  address : Addr
  deriving DecidableEq

/-- `mach_context`, with the process memory, the calls of `mmap` and the log of accesses. -/
structure MachContext where
  /-- `ptr - memblock`. -/
  ptr : ℕ
  imgAddr : Addr
  vAddr : Addr
  /-- `none` until the first assignment. -/
  entryPoint : Option Addr
  bList : List BindInfo
  dList : List CString
  segments : SegmentTable
  chainedRebaseCount : BitVec 32
  chainedBindCount : BitVec 32
  chainedUnresolvedBindCount : BitVec 32
  mem : Mem 64
  mmaps : List MmapCall
  trace : List Event

/-- The context `main` starts from, over a given process memory. -/
def MachContext.zero (m : Mem 64) : MachContext where
  ptr := 0
  imgAddr := 0#64
  vAddr := 0#64
  entryPoint := none
  bList := []
  dList := []
  segments := ⟨[], Nat.zero_le _⟩
  chainedRebaseCount := 0#32
  chainedBindCount := 0#32
  chainedUnresolvedBindCount := 0#32
  mem := m
  mmaps := []
  trace := []

/-- `*(uint64_t*)loc`. -/
def load64 (m : Mem 64) (loc : Addr) : BitVec 64 := BitVec.ofNat 64 (loadLE m loc 8)

/-- `*(uint64_t*)loc = value`. -/
def store64 (m : Mem 64) (loc : Addr) (value : BitVec 64) : Mem 64 := storeLE m loc 8 value.toNat

theorem ofNat_toNat_mod (v : BitVec 64) : BitVec.ofNat 64 (v.toNat % 256 ^ 8) = v :=
  BitVec.eq_of_toNat_eq (by simpa using v.isLt)

/-- `memcpy(dest, memblock + src, n)`. -/
def memcpy (m : Mem 64) (dest : Addr) (f : File) (src n : ℕ) : Mem 64 :=
  overlay m dest n fun i => byteAt f (src + i)

/-- Fresh anonymous pages. -/
def zeroFill (m : Mem 64) (a : Addr) (n : ℕ) : Mem 64 := overlay m a n fun _ => 0#8

/-! ## Words of an image -/

/-- The 64-bit word at offset `o` of an image. -/
def word64 (im : ℕ → Byte) (o : ℕ) : BitVec 64 := BitVec.ofNat 64 (word im o 8)

theorem load64_eq_word64 (m : Mem 64) (B : Addr) (o : ℕ) :
    load64 m (B + BitVec.ofNat 64 o) = word64 (view m B) o := by
  rw [load64, loadLE_eq_word, word64]

theorem word64_congr {im im' : ℕ → Byte} {o o' : ℕ} (h : ∀ i < 8, im (o + i) = im' (o' + i)) :
    word64 im o = word64 im' o' := by
  rw [word64, word_congr h, word64]

theorem eq_of_word64_eq {im im' : ℕ → Byte} {o o' : ℕ} (h : word64 im o = word64 im' o') {i : ℕ}
    (hi : i < 8) : im (o + i) = im' (o' + i) := by
  have hlt : ∀ (im : ℕ → Byte) (o : ℕ), word im o 8 < 2 ^ 64 := fun im o => by
    have := leNat_lt ((List.range 8).map fun i => im (o + i))
    simpa [word] using this
  have hnat := congrArg BitVec.toNat h
  rw [word64, word64, BitVec.toNat_ofNat, BitVec.toNat_ofNat, Nat.mod_eq_of_lt (hlt _ _),
    Nat.mod_eq_of_lt (hlt _ _)] at hnat
  exact eq_of_word_eq hnat hi

@[simp] theorem SegmentTable.recs_push (t : SegmentTable) (s : SegmentInfo) :
    (t.push s).recs = if t.recs.length < machLoaderMaxSegments then t.recs ++ [s] else t.recs := by
  unfold push
  split_ifs <;> rfl

end Maloader
