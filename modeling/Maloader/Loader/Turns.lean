import Maloader.Lib.Walk
import Maloader.Encode
import Maloader.Segment.Hull

/-!
# The turns of the two loops

`loader_64` and the look-ahead of `ensure_image_mapping_64` both go over the load commands, and each
has its own rule for the next one.

* `loaderTurns`, `loaderOffsets`: the context at the start of each turn of `loader_64`, and where
  its pointer stands.
* `hullTurns`, `hullOffsets`: the same for the look-ahead.
* `map_ptr_loaderTurns`, `hullOffsets_eq`: both are walks over offsets.
* **`loaderOffsets_eq_hullOffsets_iff`**: the loops visit the same offsets exactly if every segment
  command with sections, the last command apart, is as long as its section headers say.
-/

namespace Maloader

open ByteLib WalkLib

variable (E : Env) (f : File)

/-! ## The command loop -/

/-- The contexts at the start of the turns of `loader_64` that starts from `c`. -/
def loaderTurns (c : MachContext) : List MachContext :=
  List.iterate (loaderStep E f) (c.atPtr machHeader64Size) (machHeader64 f).ncmds.toNat

/-- The offsets of the commands `loader_64` visits. -/
def loaderOffsets (c : MachContext) : List ℕ := (loaderTurns E f c).map MachContext.ptr

theorem loaderLoop_eq_iterate (n : ℕ) (c : MachContext) :
    loaderLoop E f n c = (loaderStep E f)^[n] c := by
  induction n generalizing c with
  | zero => rfl
  | succ n ih => rw [loaderLoop, ih, Function.iterate_succ_apply]

theorem loader64_eq_iterate (hexec : (machHeader64 f).filetype = mhExecute) (c : MachContext) :
    loader64 E f c =
      (0, (loaderStep E f)^[(machHeader64 f).ncmds.toNat] (c.atPtr machHeader64Size)) := by
  rw [← loaderLoop_eq_iterate]
  exact if_neg (not_not.mpr hexec)

theorem map_ptr_loaderTurns (c : MachContext) :
    loaderOffsets E f c =
      List.iterate (fun p => p + loaderAdvance f p) machHeader64Size (machHeader64 f).ncmds.toNat :=
  map_iterate (fun c => by rw [loaderStep_advance, ptr_atPtr]) _ _

/-! ## The look-ahead -/

/-- One turn of the look-ahead on `p` and `(min_vmaddr, max_vmaddr)`. -/
def hullTurn (s : ℕ × Addr × Addr) : ℕ × Addr × Addr :=
  (s.1 + (loadCommandAt f s.1).cmdsize.toNat, hullStep f s.2 s.1)

/-- The states of the look-ahead at the start of its turns. -/
def hullTurns : List (ℕ × Addr × Addr) :=
  List.iterate (hullTurn f) (machHeader64Size, uint64Max, 0#64) (machHeader64 f).ncmds.toNat

/-- The offsets of the commands the look-ahead visits. -/
def hullOffsets : List ℕ := (hullTurns f).map Prod.fst

theorem hullLoop_eq_iterate (n p : ℕ) (mm : Addr × Addr) :
    hullLoop f n p mm = ((hullTurn f)^[n] (p, mm)).2 := by
  induction n generalizing p mm with
  | zero => rfl
  | succ n ih =>
    rw [hullLoop, ih, Function.iterate_succ_apply]
    rfl

theorem cmdWalk_eq_iterate (n p : ℕ) :
    cmdWalk f n p = List.iterate (fun p => p + (loadCommandAt f p).cmdsize.toNat) p n := by
  induction n generalizing p with
  | zero => rfl
  | succ n ih => rw [cmdWalk, ih, List.iterate]

theorem hullOffsets_eq : hullOffsets f = cmdOffsets f := by
  rw [cmdOffsets, cmdWalk_eq_iterate]
  exact map_iterate (f := hullTurn f) (φ := Prod.fst) (fun _ => rfl) _ _

/-! ## Agreement -/

/-- Stepping over the headers of the sections that the segment command at `p` announces leads to the
end of the command. -/
def StepsOverSections (p : ℕ) : Prop :=
  (loadCommandAt f p).cmd = lcSegment64 → (segmentCommand64 f p).nsects ≠ 0#32 →
    (loadCommandAt f p).cmdsize.toNat =
      0x48 + section64Size * (segmentCommand64 f p).nsects.toInt.toNat

instance (p : ℕ) : Decidable (StepsOverSections f p) := by
  unfold StepsOverSections; infer_instance

theorem commandKind_lcSegment64 : commandKind lcSegment64 = .segment64 := rfl

theorem loaderAdvance_eq_iff (p : ℕ) :
    loaderAdvance f p = (loadCommandAt f p).cmdsize.toNat ↔ StepsOverSections f p := by
  have hkind : commandKind (loadCommandAt f p).cmd = .segment64 ↔
      (loadCommandAt f p).cmd = lcSegment64 :=
    ⟨commandKind_eq_segment64, fun h => h ▸ commandKind_lcSegment64⟩
  have hint : (segmentCommand64 f p).nsects.toInt ≠ 0 ↔ (segmentCommand64 f p).nsects ≠ 0#32 :=
    not_congr ⟨fun h => BitVec.eq_of_toInt_eq h, fun h => by rw [h]; rfl⟩
  rw [loaderAdvance, StepsOverSections]
  split_ifs with h
  · rw [hkind, hint] at h
    exact ⟨fun he _ _ => he.symm, fun he => (he h.1 h.2).symm⟩
  · rw [hkind, hint] at h
    exact ⟨fun _ hcmd hn => absurd ⟨hcmd, hn⟩ h, fun _ => rfl⟩

/-- **The loops visit the same offsets** exactly if every segment command with sections is as long as
its section headers say. The last command need not be: nothing is read behind it. -/
theorem loaderOffsets_eq_hullOffsets_iff (hexec : (machHeader64 f).filetype = mhExecute)
    (c : MachContext) :
    let n := (machHeader64 f).ncmds.toNat
    loader64 E f c = (0, (loaderStep E f)^[n] (c.atPtr machHeader64Size)) ∧
      hull f = ((hullTurn f)^[n] (machHeader64Size, uint64Max, 0#64)).2 ∧
      (loaderOffsets E f c = hullOffsets f ↔
        ∀ p ∈ (cmdOffsets f).dropLast, StepsOverSections f p) := by
  refine ⟨loader64_eq_iterate E f hexec c, hullLoop_eq_iterate f _ _ _, ?_⟩
  rw [map_ptr_loaderTurns, hullOffsets_eq, cmdOffsets, cmdWalk_eq_iterate, iterate_eq_iff]
  simp only [Nat.add_left_cancel_iff, loaderAdvance_eq_iff]

/-- A segment command with one section and eight bytes of padding, then the segment with the data. -/
def paddedFile : File :=
  encodeHeader 2 ++ encodeSegment64Sized 160 1 (lit "__TEXT") 0x1000 0x1000 0 0 ++
    encodeSegment64 (lit "__DATA") 0x2000 0x1000 0 0

/-- The look-ahead finds the second command at 192, the loader looks for it eight bytes too early. -/
theorem loaderOffsets_paddedFile :
    (machHeader64 paddedFile).filetype = mhExecute ∧
      loaderOffsets Env.plain paddedFile (MachContext.zero fun _ => 0#8) ≠ hullOffsets paddedFile := by
  rw [map_ptr_loaderTurns, hullOffsets_eq]
  decide +kernel

theorem loaderOffsets_eq_hullOffsets_unpadded :
    let f := encodeHeader 2 ++ encodeSegment64Sized 152 1 (lit "__TEXT") 0x1000 0x1000 0 0 ++
      encodeSegment64 (lit "__DATA") 0x2000 0x1000 0 0
    loaderOffsets Env.plain f (MachContext.zero fun _ => 0#8) = hullOffsets f :=
  (loaderOffsets_eq_hullOffsets_iff Env.plain _ (by decide +kernel) _).2.2.mpr (by decide +kernel)

end Maloader
