import Maloader.Host.Bounds
import Maloader.Chained.Frame
import Maloader.Loader.Entries

/-!
# The fixup counters of a run

`dump_chained_fixups` sets the counts of rebases and binds to zero before it walks, and lets the
count of unresolved binds run on.

* `isBindEntry`, `isUnresolvedEntry`, `dumpChainedFixups_counts`: what one walk counts.
* `turnCounts`, `lastCounts`: the entries that the last walk of a run has come to.
* `CountersAgree`, **`counters_iff`**: exactly when both counts are about these entries throughout.
-/

namespace Maloader

open ByteLib WalkLib

variable (E : Env) (f : File)

/-! ## One walk -/

/-- A chain entry that binds. -/
def isBindEntry : Event → Bool
  | .fixup _ _ raw => chained64IsBind raw
  | _ => false

/-- A chain entry that binds and finds no address. -/
def isUnresolvedEntry (dataoff : ℕ) : Event → Bool
  | .fixup _ _ raw => chained64IsBind raw && importAddress E f dataoff raw = 0#64
  | _ => false

theorem countP_isUnresolvedEntry_le (dataoff : ℕ) (log : List Event) :
    log.countP (isUnresolvedEntry E f dataoff) ≤ log.countP isBindEntry := by
  refine List.countP_mono_left fun ev _ h => ?_
  cases ev with
  | fixup _ _ raw => exact (Bool.and_eq_true_iff.mp h).1
  | _ => exact h

theorem countP_entry {p : Event → Bool} {loc : Addr} (hp : ∀ v, p (.store loc v) = false)
    (log : List Event) (ev : Event) (vs : List (BitVec 64)) :
    (log ++ ev :: vs.map (Event.store loc)).countP p = log.countP p + (p ev).toNat := by
  have hstores : (vs.map (Event.store loc)).countP p = 0 := by
    rw [List.countP_map, List.countP_eq_zero]
    exact fun v _ => by simp [hp v]
  rw [List.countP_append, List.countP_cons, hstores, Nat.zero_add]
  cases p ev <;> rfl

/-- The counters hold the entries of the log, the count of unresolved binds on top of `base`. -/
structure Counts (dataoff : ℕ) (base : BitVec 32) (c : MachContext) : Prop where
  binds : c.chainedBindCount = BitVec.ofNat 32 (c.trace.countP isBindEntry)
  unresolved : c.chainedUnresolvedBindCount =
    base + BitVec.ofNat 32 (c.trace.countP (isUnresolvedEntry E f dataoff))

variable {E f}

theorem Counts.entry {dataoff : ℕ} {base : BitVec 32} {c : MachContext} (h : Counts E f dataoff base c)
    (segment : ℕ) (loc : Addr) (raw : BitVec 64) : Counts E f dataoff base
      (chainedEntry E f dataoff (chainedFixupsHeader f dataoff) segment c loc raw) := by
  have hbind : (isBindEntry (.fixup segment loc raw)).toNat = (chained64IsBind raw).toNat := rfl
  have hunresolved : (isUnresolvedEntry E f dataoff (.fixup segment loc raw)).toNat =
      (isUnresolved E f dataoff (chainedFixupsHeader f dataoff) c.imgAddr raw).toNat := by
    rw [isUnresolved_eq]
    rfl
  rw [chainedEntry_eq]
  constructor
  · simp only [countP_entry (p := isBindEntry) (fun _ => rfl), hbind, BitVec.ofNat_add, h.binds]
  · simp only [countP_entry (p := isUnresolvedEntry E f dataoff) (fun _ => rfl), hunresolved,
      BitVec.ofNat_add, h.unresolved, BitVec.add_assoc]

theorem dumpChainedFixups_counts (c : MachContext) (dataoff datasize : ℕ) :
    (dumpChainedFixups E f c dataoff datasize).chainedBindCount =
        BitVec.ofNat 32 ((walkEvents E f c dataoff datasize).countP isBindEntry) ∧
      (dumpChainedFixups E f c dataoff datasize).chainedUnresolvedBindCount =
        c.chainedUnresolvedBindCount + BitVec.ofNat 32
          ((walkEvents E f c dataoff datasize).countP (isUnresolvedEntry E f dataoff)) := by
  have hstart : Counts E f dataoff c.chainedUnresolvedBindCount c.silent.resetCounts := by
    refine ⟨rfl, ?_⟩
    simp only [MachContext.resetCounts, MachContext.silent, List.countP_nil, BitVec.add_zero]
  have hend : Counts E f dataoff c.chainedUnresolvedBindCount
      (dumpChainedFixups E f c.silent dataoff datasize) :=
    dumpChainedFixups_inv hstart fun _ segment loc raw h => h.entry segment loc raw
  rw [dumpChainedFixups_silent]
  exact ⟨hend.binds, hend.unresolved⟩

/-! ## A run -/

variable (E f)

/-- The bind entries that a turn over chained fixups comes to, and those of them without an address. -/
def turnCounts (c : MachContext) : Option (ℕ × ℕ) :=
  match commandAt f c.ptr with
  | .dyldChainedFixups fixups =>
    let log := walkEvents E f c fixups.dataoff fixups.datasize
    some (log.countP isBindEntry, log.countP (isUnresolvedEntry E f fixups.dataoff))
  | _ => none

/-- The counts of the last turn over chained fixups; of no entries before the first. -/
def lastCounts (turns : List MachContext) : ℕ × ℕ :=
  ((turns.filterMap (turnCounts E f)).getLast?).getD (0, 0)

/-- Both counts are about the bind entries of the last turn over chained fixups; so there are no more
unresolved ones than there are, as long as the count has not run over. -/
structure CountersAgree (turns : List MachContext) (c : MachContext) : Prop where
  binds : c.chainedBindCount = BitVec.ofNat 32 (lastCounts E f turns).1
  unresolved : c.chainedUnresolvedBindCount = BitVec.ofNat 32 (lastCounts E f turns).2
  le : (lastCounts E f turns).1 < 2 ^ 32 →
    c.chainedUnresolvedBindCount.toNat ≤ c.chainedBindCount.toNat

/-- A turn over chained fixups finds no unresolved bind counted. -/
def StartsFromZero (c : MachContext) : Prop :=
  (turnCounts E f c).isSome → c.chainedUnresolvedBindCount = 0#32

variable {E f}

theorem lastCounts_append (turns : List MachContext) (c : MachContext) :
    lastCounts E f (turns ++ [c]) = (turnCounts E f c).getD (lastCounts E f turns) := by
  rw [lastCounts, List.filterMap_append, lastCounts]
  cases h : turnCounts E f c <;> simp [h]

theorem turnCounts_le {c : MachContext} {n : ℕ × ℕ} (h : n ∈ turnCounts E f c) : n.2 ≤ n.1 := by
  unfold turnCounts at h
  split at h
  · obtain rfl := Option.some.inj h
    exact countP_isUnresolvedEntry_le E f _ _
  · cases h

theorem lastCounts_le (turns : List MachContext) :
    (lastCounts E f turns).2 ≤ (lastCounts E f turns).1 := by
  unfold lastCounts
  cases h : (turns.filterMap (turnCounts E f)).getLast? with
  | none => exact le_rfl
  | some n =>
    obtain ⟨c, -, hc⟩ := List.mem_filterMap.mp (List.mem_of_getLast? h)
    exact turnCounts_le hc

theorem countersAgree_of_eq {turns : List MachContext} {c : MachContext}
    (hbinds : c.chainedBindCount = BitVec.ofNat 32 (lastCounts E f turns).1)
    (hunresolved : c.chainedUnresolvedBindCount = BitVec.ofNat 32 (lastCounts E f turns).2) :
    CountersAgree E f turns c := by
  refine ⟨hbinds, hunresolved, fun hlt => ?_⟩
  have hle := lastCounts_le (E := E) (f := f) turns
  rw [hbinds, hunresolved, BitVec.toNat_ofNat, BitVec.toNat_ofNat, Nat.mod_eq_of_lt hlt,
    Nat.mod_eq_of_lt (by omega)]
  exact hle

/-- **One turn** counts the entries of its walk on top of the unresolved ones counted before; a turn
over another command counts nothing. -/
theorem counts_loaderStep (c : MachContext) :
    (loaderStep E f c).chainedBindCount =
        ((turnCounts E f c).map fun n => BitVec.ofNat 32 n.1).getD c.chainedBindCount ∧
      (loaderStep E f c).chainedUnresolvedBindCount = c.chainedUnresolvedBindCount +
        ((turnCounts E f c).map fun n => BitVec.ofNat 32 n.2).getD 0#32 := by
  have hptr : ∀ (d : MachContext) (p : ℕ), (d.atPtr p).chainedBindCount = d.chainedBindCount ∧
      (d.atPtr p).chainedUnresolvedBindCount = d.chainedUnresolvedBindCount := fun _ _ => ⟨rfl, rfl⟩
  rw [loaderStep_advance, (hptr _ _).1, (hptr _ _).2, turnCounts]
  cases commandAt f c.ptr with
  | dyldChainedFixups fixups =>
    exact dumpChainedFixups_counts c fixups.dataoff fixups.datasize
  | segment64 seg =>
    have hload : execSegment E f c seg = c.withLoad (execSegment E f c seg) :=
      execSegment_withLoad E f c c seg
    rw [execCommand, hload]
    exact ⟨rfl, (BitVec.add_zero _).symm⟩
  | dyldInfo info =>
    rw [execCommand, loadDyldInfo_eq]
    exact ⟨rfl, (BitVec.add_zero _).symm⟩
  | symtab symtab =>
    rw [execCommand, loadSymtab_eq]
    exact ⟨rfl, (BitVec.add_zero _).symm⟩
  | loadDylib name => exact ⟨rfl, (BitVec.add_zero _).symm⟩
  | other => exact ⟨rfl, (BitVec.add_zero _).symm⟩

theorem CountersAgree.startsFromZero {turns : List MachContext} {c : MachContext}
    (h : CountersAgree E f (turns ++ [c]) (loaderStep E f c)) : StartsFromZero E f c := by
  intro hwalk
  obtain ⟨n, hn⟩ := Option.isSome_iff_exists.mp hwalk
  have hunresolved := h.unresolved
  rw [(counts_loaderStep c).2, lastCounts_append, hn] at hunresolved
  exact add_eq_right.mp hunresolved

theorem CountersAgree.step {turns : List MachContext} {c : MachContext} (h : CountersAgree E f turns c)
    (hzero : StartsFromZero E f c) : CountersAgree E f (turns ++ [c]) (loaderStep E f c) := by
  obtain ⟨hbinds, hunresolved⟩ := counts_loaderStep (E := E) (f := f) c
  apply countersAgree_of_eq
  · rw [hbinds, lastCounts_append]
    cases turnCounts E f c with
    | none => exact h.binds
    | some n => rfl
  · rw [hunresolved, lastCounts_append]
    cases hn : turnCounts E f c with
    | none => exact (BitVec.add_zero _).trans h.unresolved
    | some n =>
      rw [hzero (Option.isSome_of_mem hn)]
      exact BitVec.zero_add _

/-- **The counters of a run agree** behind every command exactly if no turn over chained fixups finds
an unresolved bind counted. -/
theorem counters_iff (E : Env) (f : File) (m : Mem 64) :
    (∀ before c after, runTurns E f m = before ++ c :: after →
        CountersAgree E f (before ++ [c]) (loaderStep E f c)) ↔
      ∀ c ∈ runTurns E f m, StartsFromZero E f c := by
  constructor
  · intro h c hc
    obtain ⟨before, after, hsplit⟩ := List.append_of_mem hc
    exact (h before c after hsplit).startsFromZero
  · intro h before c after hsplit
    have hzero : StartsFromZero E f c := h c (by rw [hsplit]; simp)
    have hstart : CountersAgree E f [] ((MachContext.zero m).atPtr machHeader64Size) :=
      countersAgree_of_eq rfl rfl
    have hagree : CountersAgree E f before c :=
      runTurns_history hstart (fun _ b hb hagree => hagree.step (h b hb)) hsplit
    exact hagree.step hzero

/-- Chained fixups with one unresolved bind, then a payload that is too small. -/
def rejectedFile : File :=
  encodeHeader 3 ++ encodeSegment64 (lit "__DATA") 0x4000 0x1000 136 8 ++
    encodeChainedFixups 144 68 ++ encodeChainedFixups 144 0 ++ leBytes 8 0x8000000000000000 ++
      entryPayload 1 1 (leBytes 4 0) (lit "_h" ++ [0#8])

/-- Behind the last command no bind is counted, but one unresolved bind. -/
theorem counters_rejectedFile :
    ∃ before c, runTurns entryEnv rejectedFile (fun _ => 0#8) = before ++ [c] ∧
      (loaderStep entryEnv rejectedFile c).chainedBindCount = 0#32 ∧
      (loaderStep entryEnv rejectedFile c).chainedUnresolvedBindCount = 1#32 := by
  let start : MachContext := (MachContext.zero fun _ => 0#8).atPtr machHeader64Size
  let step := loaderStep entryEnv rejectedFile
  have hexec : (machHeader64 rejectedFile).filetype = mhExecute := by decide
  have hcount : (machHeader64 rejectedFile).ncmds.toNat = 3 := by decide
  refine ⟨[start, step start], step (step start), ?_, by decide +kernel, by decide +kernel⟩
  rw [runTurns, if_pos hexec, loaderTurns, hcount]
  rfl

end Maloader
