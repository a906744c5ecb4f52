import Maloader.Host.Classic
import Maloader.Loader.Counters
import Maloader.Loader32.Mapping
import Maloader.Main.Model

/-!
# How a run of the program ends

What `main` makes of a file: where it stops, what it reports, and what it calls.

* `turnEntry`, **`entryPoint_loader64`**: the entry point of a run; `unresolvedTotal`,
  `unresolved_loader64`: the unresolved chained binds of a run.
* **`main_called_iff`**: exactly when control is handed over.
* **`main_crashed_iff`**: exactly when a run crashes, as far as total files and memories tell.
* **`main_reports`**: what is called and what is reported.
-/

namespace Maloader

open ByteLib WalkLib FallibleLib

/-! ## The entry point -/

variable (E : Env) (f : File)

/-- The entry point that a turn over a symbol table finds. -/
def turnEntry (c : MachContext) : Option Addr :=
  match commandAt f c.ptr with
  | .symtab symtab => (mainSymbols f symtab).getLast?.map (entryOf c)
  | _ => none

theorem entryPoint_loaderStep (c : MachContext) :
    (loaderStep E f c).entryPoint = (turnEntry f c).or c.entryPoint := by
  have hptr : ∀ (d : MachContext) (p : ℕ), (d.atPtr p).entryPoint = d.entryPoint := fun _ _ => rfl
  rw [loaderStep_advance, hptr, turnEntry]
  cases commandAt f c.ptr with
  | symtab symtab => rw [execCommand, loadSymtab_eq]
  | segment64 seg =>
    have hload : execSegment E f c seg = c.withLoad (execSegment E f c seg) :=
      execSegment_withLoad E f c c seg
    rw [execCommand, hload]
    rfl
  | dyldInfo info => rw [execCommand, loadDyldInfo_eq, Option.none_or]
  | dyldChainedFixups fixups =>
    have himage : dumpChainedFixups E f c fixups.dataoff fixups.datasize =
        c.withImage (dumpChainedFixups E f c fixups.dataoff fixups.datasize) :=
      dumpChainedFixups_withImage E f c c fixups.dataoff fixups.datasize
    rw [execCommand, himage]
    rfl
  | loadDylib name => rfl
  | other => rfl

/-- **The entry point of a run** is the one that a turn has found last. -/
theorem entryPoint_loader64 (m : Mem 64) : (loader64 E f (MachContext.zero m)).2.entryPoint =
    ((runTurns E f m).filterMap (turnEntry f)).getLast? := by
  unfold runTurns
  split_ifs with hexec
  · have hrun := iterate_last (g := MachContext.entryPoint) (entryPoint_loaderStep E f)
      ((MachContext.zero m).atPtr machHeader64Size) (machHeader64 f).ncmds.toNat
    have hzero : ((MachContext.zero m).atPtr machHeader64Size).entryPoint = none := rfl
    rw [hzero, Option.or_none] at hrun
    rwa [loader64_eq_iterate E f hexec]
  · rw [loader64, if_pos hexec]
    rfl

/-! ## Unresolved binds -/

/-- The bind entries without an address that the walks of a run come to. -/
def unresolvedTotal (m : Mem 64) : ℕ :=
  ((runTurns E f m).map fun c => ((turnCounts E f c).map Prod.snd).getD 0).sum

/-- **The unresolved binds of a run** are counted over all its walks, modulo `2 ^ 32`. -/
theorem unresolved_loader64 (m : Mem 64) :
    (loader64 E f (MachContext.zero m)).2.chainedUnresolvedBindCount =
      BitVec.ofNat 32 (unresolvedTotal E f m) := by
  have hcast : ∀ l : List ℕ, BitVec.ofNat 32 l.sum = (l.map (BitVec.ofNat 32)).sum := by
    intro l
    induction l with
    | nil => rfl
    | cons n l ih => rw [List.sum_cons, BitVec.ofNat_add, ih, List.map_cons, List.sum_cons]
  have hstep : ∀ c : MachContext, (loaderStep E f c).chainedUnresolvedBindCount =
      c.chainedUnresolvedBindCount +
        BitVec.ofNat 32 (((turnCounts E f c).map Prod.snd).getD 0) := by
    intro c
    rw [(counts_loaderStep c).2]
    cases turnCounts E f c <;> rfl
  rw [unresolvedTotal, hcast, List.map_map]
  unfold runTurns
  split_ifs with hexec
  · have hrun := iterate_sum (g := MachContext.chainedUnresolvedBindCount) hstep
      ((MachContext.zero m).atPtr machHeader64Size) (machHeader64 f).ncmds.toNat
    have hzero : ((MachContext.zero m).atPtr machHeader64Size).chainedUnresolvedBindCount = 0 := rfl
    rw [hzero, zero_add] at hrun
    rwa [loader64_eq_iterate E f hexec]
  · rw [loader64, if_pos hexec]
    rfl

/-! ## Outcomes -/

/-- The loader of the file's width writes to a mapping that has failed: only the 32-bit one does. -/
def LoadFaults (E : Env) (f : File) (bit : ℕ) : Prop :=
  bit = 32 ∧ (machHeader f).filetype = mhExecute ∧
    (textsOf (commands32 f)).foldlM (textCall E) [] = none

variable {E f}

theorem determineBit_eq_some {bit : ℕ} (h : determineBit f = some bit) : bit = 32 ∨ bit = 64 := by
  unfold determineBit at h
  dsimp only at h
  split_ifs at h
  · exact .inl (Option.some.inj h).symm
  · exact .inr (Option.some.inj h).symm

theorem runLoader_eq_none_iff {bit : ℕ} (h : determineBit f = some bit) (m : Mem 64) :
    runLoader E f bit (MachContext.zero m) = none ↔ LoadFaults E f bit := by
  rcases determineBit_eq_some h with rfl | rfl
  · have hrun : runLoader E f 32 (MachContext.zero m) = loader E f (MachContext.zero m) := if_pos rfl
    rw [hrun, LoadFaults]
    by_cases hexec : (machHeader f).filetype = mhExecute
    · rw [← mmaps_loader hexec m, Option.map_eq_none_iff]
      simp [hexec]
    · have hload : loader E f (MachContext.zero m) = some (-1, MachContext.zero m) := if_pos hexec
      simp [hload, hexec]
  · have hrun : runLoader E f 64 (MachContext.zero m) = some (loader64 E f (MachContext.zero m)) :=
      if_neg (by decide)
    simp [hrun, LoadFaults]

/-- What `main` loads: the file behind the first argument, of a width it knows. -/
structure Opens (S : System) (argv : List CString) (f : File) (bit : ℕ) : Prop where
  file : ∃ filename args, argv = filename :: args ∧ S.file filename = some f
  bit : determineBit f = some bit

variable {S : System} {argv : List CString} {m : Mem 64}

theorem Opens.main_eq {bit : ℕ} (h : Opens S argv f bit) :
    main S argv m = handOver S f bit argv m := by
  obtain ⟨⟨filename, args, rfl, hfile⟩, hbit⟩ := h
  simp only [main, openExec, hfile, hbit]

theorem Opens.unique {bit bit' : ℕ} {f' : File} (h : Opens S argv f bit) (h' : Opens S argv f' bit') :
    f = f' ∧ bit = bit' := by
  obtain ⟨⟨filename, args, rfl, hfile⟩, hbit⟩ := h
  obtain ⟨⟨filename', args', he, hfile'⟩, hbit'⟩ := h'
  obtain ⟨rfl, -⟩ := List.cons_eq_cons.mp he
  obtain rfl := Option.some.inj (hfile.symm.trans hfile')
  exact ⟨rfl, Option.some.inj (hbit.symm.trans hbit')⟩

theorem main_of_not_opens (h : ∀ f bit, ¬ Opens S argv f bit) :
    main S argv m = if argv = [] then .returned (-1) else .exited (-1) := by
  cases argv with
  | nil => rfl
  | cons filename args =>
    rw [if_neg (List.cons_ne_nil _ _)]
    cases hfile : S.file filename with
    | none => simp only [main, openExec, hfile]
    | some f =>
      cases hbit : determineBit f with
      | none => simp only [main, openExec, hfile, hbit]
      | some bit => exact absurd ⟨⟨filename, args, rfl, hfile⟩, hbit⟩ (h f bit)

/-- **What follows the loader**: binding, and the call of the entry point. -/
theorem handOver_eq (argv : List CString) {bit : ℕ} {result : ℤ} {c : MachContext}
    (hrun : runLoader S.loaderEnv f bit (MachContext.zero m) = some (result, c)) :
    (NamelessBind S.host c → handOver S f bit argv m = .crashed) ∧
      (¬ NamelessBind S.host c → handOver S f bit argv m =
        .called c.entry argv.length argv (loadWarnings bit result c) (c.bound S.host)) := by
  constructor
  · intro h
    have hbind := (doBind_eq_none_iff S.host c).mpr h
    simp only [handOver, hrun, hbind]
  · intro h
    have hbind := doBind_eq_bound h
    simp only [handOver, hrun, hbind, bindWarnings, ne_eq, not_true_eq_false, if_false,
      List.append_nil]
    rfl

/-- **Control is handed over** exactly if the first argument is a file of a known width, the loader
does not write to a mapping that has failed, and binding comes to no record without a name. What the
loader returns does not matter. -/
theorem main_called_iff (S : System) (argv : List CString) (m : Mem 64) (entry : Addr) (argc : ℕ)
    (args : List CString) (warnings : List Warning) (d : MachContext) :
    main S argv m = .called entry argc args warnings d ↔
      ∃ f bit result c, Opens S argv f bit ∧
        runLoader S.loaderEnv f bit (MachContext.zero m) = some (result, c) ∧
        ¬ NamelessBind S.host c ∧ entry = c.entry ∧ argc = argv.length ∧ args = argv ∧
        warnings = loadWarnings bit result c ∧ d = c.bound S.host := by
  constructor
  · intro hmain
    by_cases hopens : ∃ f bit, Opens S argv f bit
    · obtain ⟨f, bit, h⟩ := hopens
      rw [h.main_eq] at hmain
      cases hrun : runLoader S.loaderEnv f bit (MachContext.zero m) with
      | none => simp [handOver, hrun] at hmain
      | some r =>
        obtain ⟨hcrash, hcall⟩ := handOver_eq argv hrun
        by_cases hname : NamelessBind S.host r.2
        · rw [hcrash hname] at hmain
          cases hmain
        · rw [hcall hname, Outcome.called.injEq] at hmain
          obtain ⟨rfl, rfl, rfl, rfl, rfl⟩ := hmain
          exact ⟨f, bit, r.1, r.2, h, hrun, hname, rfl, rfl, rfl, rfl, rfl⟩
    · rw [main_of_not_opens fun f bit h => hopens ⟨f, bit, h⟩] at hmain
      split_ifs at hmain
  · rintro ⟨f, bit, result, c, h, hrun, hname, rfl, rfl, rfl, rfl, rfl⟩
    rw [h.main_eq]
    exact (handOver_eq _ hrun).2 hname

/-- **The program crashes** where the 32-bit loader copies into a mapping that has failed, or binding
comes to a record without a name. Files and memories being total, these are all the crashes there are
here; reading behind a file, storing outside mapped memory and calling `NULL` are not told. -/
theorem main_crashed_iff (S : System) (argv : List CString) (m : Mem 64) :
    main S argv m = .crashed ↔ ∃ f bit, Opens S argv f bit ∧ (LoadFaults S.loaderEnv f bit ∨
      ∃ result c, runLoader S.loaderEnv f bit (MachContext.zero m) = some (result, c) ∧
        NamelessBind S.host c) := by
  constructor
  · intro hmain
    by_cases hopens : ∃ f bit, Opens S argv f bit
    · obtain ⟨f, bit, h⟩ := hopens
      refine ⟨f, bit, h, ?_⟩
      rw [h.main_eq] at hmain
      cases hrun : runLoader S.loaderEnv f bit (MachContext.zero m) with
      | none => exact .inl ((runLoader_eq_none_iff h.bit m).mp hrun)
      | some r =>
        refine .inr ⟨r.1, r.2, rfl, ?_⟩
        by_contra hname
        rw [(handOver_eq argv hrun).2 hname] at hmain
        cases hmain
    · rw [main_of_not_opens fun f bit h => hopens ⟨f, bit, h⟩] at hmain
      split_ifs at hmain
  · rintro ⟨f, bit, h, hfault | ⟨result, c, hrun, hname⟩⟩
    · rw [h.main_eq, handOver, (runLoader_eq_none_iff h.bit m).mpr hfault]
    · rw [h.main_eq]
      exact (handOver_eq argv hrun).1 hname

/-! ## Reports -/

theorem mem_loadWarnings {bit : ℕ} {result : ℤ} {c : MachContext} {w : Warning} :
    w ∈ loadWarnings bit result c ↔
      (result ≠ 0 ∧ w = .loaderFailed bit result) ∨
      ((c.imgAddr = 0#64 ∨ c.vAddr = 0#64) ∧ w = .imageNotMapped c.imgAddr c.vAddr) ∨
      (c.entry = 0#64 ∧ w = .noEntryPoint) ∨
      (c.chainedUnresolvedBindCount ≠ 0#32 ∧
        w = .unresolvedChainedBinds c.chainedUnresolvedBindCount) := by
  have hite : ∀ (p : Prop) [Decidable p] (v : Warning), w ∈ (if p then [v] else []) ↔ p ∧ w = v := by
    intro p _ v
    split_ifs with hp <;> simp [hp]
  rw [loadWarnings, List.mem_append, List.mem_append, List.mem_append, hite, hite, hite, hite,
    or_assoc, or_assoc]

theorem unresolved_loader {c : MachContext} {result : ℤ}
    (h : loader E f (MachContext.zero m) = some (result, c)) :
    result = -1 ∧ c.chainedUnresolvedBindCount = 0#32 := by
  by_cases hexec : (machHeader f).filetype = mhExecute
  · obtain ⟨hresult, d, p, hrun, rfl⟩ := loader_eq_some hexec h
    refine ⟨hresult, ?_⟩
    show d.chainedUnresolvedBindCount = 0#32
    refine ActionLib.foldlM_option_keeps
      (P := fun d : MachContext => d.chainedUnresolvedBindCount = 0#32) ?_ rfl hrun
    intro c cmd _ d hc hcmd
    cases cmd with
    | segment seg =>
      obtain ⟨c', hmap, rfl⟩ := Option.map_eq_some_iff.mp hcmd
      split_ifs at hmap
      · obtain ⟨B, -, rfl⟩ := mapText_eq_some E f hmap
        exact hc
      · exact Option.some.inj hmap ▸ hc
    | dyldInfo info =>
      obtain rfl := Option.some.inj hcmd
      rwa [loadDyldInfo_eq]
    | symtab symtab =>
      obtain rfl := Option.some.inj hcmd
      rwa [loadSymtab32_eq]
    | loadDylib name => exact Option.some.inj hcmd ▸ hc
    | other => exact Option.some.inj hcmd ▸ hc
  · have hload : loader E f (MachContext.zero m) = some (-1, MachContext.zero m) := if_pos hexec
    obtain ⟨rfl, rfl⟩ := Prod.mk.inj (Option.some.inj (hload.symm.trans h))
    exact ⟨rfl, rfl⟩

theorem runLoader_result {bit : ℕ} {c : MachContext} {result : ℤ} (hbit : determineBit f = some bit)
    (h : runLoader E f bit (MachContext.zero m) = some (result, c)) :
    result = (if bit = 64 ∧ (machHeader64 f).filetype = mhExecute then 0 else -1) ∧
      c.chainedUnresolvedBindCount =
        (if bit = 64 then BitVec.ofNat 32 (unresolvedTotal E f m) else 0#32) ∧
      (bit = 64 → c = (loader64 E f (MachContext.zero m)).2) := by
  rcases determineBit_eq_some hbit with rfl | rfl
  · have hrun : loader E f (MachContext.zero m) = some (result, c) := h
    obtain ⟨rfl, hcount⟩ := unresolved_loader hrun
    exact ⟨rfl, hcount, fun h => absurd h (by decide)⟩
  · have hrun : loader64 E f (MachContext.zero m) = (result, c) := Option.some.inj h
    have hcount := unresolved_loader64 E f m
    rw [hrun] at hcount ⊢
    refine ⟨?_, hcount, fun _ => rfl⟩
    have hresult : (loader64 E f (MachContext.zero m)).1 = result := congrArg Prod.fst hrun
    rw [← hresult, loader64]
    split_ifs <;> simp_all

/-- **What is called, and what is reported** before. The result of the loader is reported for every
32-bit file, and for a 64-bit file that is no executable; a missing image or entry point where the
address is `NULL`; unresolved chained binds where their number over the whole run is no multiple of
`2 ^ 32`; a failure of binding never. For a 64-bit file the call goes to the entry point found last. -/
theorem main_reports (S : System) (argv : List CString) (m : Mem 64) {bit : ℕ}
    (hopens : Opens S argv f bit) {entry : Addr} {argc : ℕ} {args : List CString}
    {warnings : List Warning} {d : MachContext}
    (hmain : main S argv m = .called entry argc args warnings d) :
    (bit = 64 → entry =
      (((runTurns S.loaderEnv f m).filterMap (turnEntry f)).getLast?).getD 0#64) ∧
    (∀ n result, .loaderFailed n result ∈ warnings ↔ n = bit ∧ result = -1 ∧
      ¬ (bit = 64 ∧ (machHeader64 f).filetype = mhExecute)) ∧
    (∀ a v, .imageNotMapped a v ∈ warnings ↔ a = d.imgAddr ∧ v = d.vAddr ∧ (a = 0#64 ∨ v = 0#64)) ∧
    (.noEntryPoint ∈ warnings ↔ entry = 0#64) ∧
    (∀ n, .unresolvedChainedBinds n ∈ warnings ↔
      bit = 64 ∧ n = BitVec.ofNat 32 (unresolvedTotal S.loaderEnv f m) ∧ n ≠ 0#32) ∧
    ∀ result, .bindFailed result ∉ warnings := by
  obtain ⟨f', bit', result, c, hopens', hrun, -, rfl, -, -, rfl, rfl⟩ :=
    (main_called_iff S argv m entry argc args warnings d).mp hmain
  obtain ⟨rfl, rfl⟩ := hopens.unique hopens'
  obtain ⟨hresult, hcount, hloaded⟩ := runLoader_result hopens.bit hrun
  have himg : (c.bound S.host).imgAddr = c.imgAddr := rfl
  have hv : (c.bound S.host).vAddr = c.vAddr := rfl
  have hfails : result ≠ 0 ↔ ¬ (bit = 64 ∧ (machHeader64 f).filetype = mhExecute) := by
    rw [hresult]
    split_ifs with h <;> simp [h]
  refine ⟨fun hbit => ?_, fun n r => ?_, fun a v => ?_, ?_, fun n => ?_, fun r => ?_⟩
  · rw [MachContext.entry, hloaded hbit, entryPoint_loader64]
  · rw [mem_loadWarnings, hfails]
    simp only [Warning.loaderFailed.injEq, reduceCtorEq, and_false, or_false]
    constructor
    · rintro ⟨h, rfl, rfl⟩
      exact ⟨rfl, by rw [hresult, if_neg h], h⟩
    · rintro ⟨rfl, rfl, h⟩
      exact ⟨h, rfl, by rw [hresult, if_neg h]⟩
  · rw [mem_loadWarnings, himg, hv]
    simp only [Warning.imageNotMapped.injEq, reduceCtorEq, and_false, or_false, false_or]
    constructor
    · rintro ⟨h, rfl, rfl⟩
      exact ⟨rfl, rfl, h⟩
    · rintro ⟨rfl, rfl, h⟩
      exact ⟨h, rfl, rfl⟩
  · rw [mem_loadWarnings]
    simp
  · rw [mem_loadWarnings, hcount]
    simp only [Warning.unresolvedChainedBinds.injEq, reduceCtorEq, and_false, false_or]
    split_ifs with hbit
    · constructor
      · rintro ⟨h, rfl⟩
        exact ⟨hbit, rfl, h⟩
      · rintro ⟨-, rfl, h⟩
        exact ⟨h, rfl⟩
    · simp [hbit]
  · rw [mem_loadWarnings]
    simp

/-- A page with one chained bind, to `_f`, and `_main` at `0x4020`. -/
def oneBindFile : File :=
  encodeHeader 3 ++ encodeSegment64 (lit "__DATA") 0x4000 0x1000 144 8 ++
    encodeChainedFixups 152 oneImport.length ++ encodeSymtab 219 1 235 ++
      leBytes 8 0x8000000000000000 ++ oneImport ++ encodeNlist64 0 0x4020 ++ lit "_main" ++ [0#8]

/-- The system that has `oneBindFile` under every name, maps at `0x7000` and does not know `f`. -/
def oneBindSystem : System where
  env := { Env.plain with mmap := fun _ _ _ => some 0x7000#64 }
  host := smallHost
  file _ := some oneBindFile

/-- `_main` is called at `0x7020`, and only the bind is reported. -/
theorem main_reports_oneBindFile :
    ∃ warnings d, main oneBindSystem [lit "prog"] (fun _ => 0#8) =
        .called 0x7020#64 1 [lit "prog"] warnings d ∧
      .unresolvedChainedBinds 1#32 ∈ warnings ∧ .noEntryPoint ∉ warnings ∧
      (∀ a v, .imageNotMapped a v ∉ warnings) ∧ ∀ bit result, .loaderFailed bit result ∉ warnings := by
  have hopens : Opens oneBindSystem [lit "prog"] oneBindFile 64 :=
    ⟨⟨_, _, rfl, rfl⟩, by decide +kernel⟩
  obtain ⟨⟨result, c⟩, hload⟩ :
    ∃ r, loader64 oneBindSystem.loaderEnv oneBindFile (MachContext.zero fun _ => 0#8) = r := ⟨_, rfl⟩
  have hrun : runLoader oneBindSystem.loaderEnv oneBindFile 64 (MachContext.zero fun _ => 0#8) =
      some (result, c) := hload ▸ if_neg (by decide)
  have hc : c = (loader64 oneBindSystem.loaderEnv oneBindFile (MachContext.zero fun _ => 0#8)).2 := by
    rw [hload]
  have hnamed : ¬ NamelessBind oneBindSystem.host c := by
    have hnone : c.bList.length = 0 := by
      rw [hc]
      decide +kernel
    rintro ⟨-, r, hr, -⟩
    rw [List.length_eq_zero_iff.mp hnone] at hr
    exact absurd hr List.not_mem_nil
  have hmain := hopens.main_eq.trans ((handOver_eq _ hrun).2 hnamed)
  obtain ⟨-, hfailed, himage, hentry, hbinds, -⟩ := main_reports _ _ _ hopens hmain
  have himg : (c.bound oneBindSystem.host).imgAddr = 0x7000#64 ∧
      (c.bound oneBindSystem.host).vAddr = 0x4000#64 ∧ c.entry = 0x7020#64 := by
    rw [hc]
    decide +kernel
  obtain ⟨himg, hv, hcall⟩ := himg
  refine ⟨_, _, hcall ▸ hmain, (hbinds 1#32).mpr ⟨rfl, by decide +kernel, by decide⟩, fun h => ?_,
    fun a v h => ?_, fun bit result h => ?_⟩
  · exact absurd (hcall.symm.trans (hentry.mp h)) (by decide)
  · obtain ⟨rfl, rfl, hzero⟩ := (himage a v).mp h
    rcases hzero with h0 | h0
    · exact absurd (himg.symm.trans h0) (by decide)
    · exact absurd (hv.symm.trans h0) (by decide)
  · obtain ⟨rfl, -, hnot⟩ := (hfailed bit result).mp h
    exact hnot ⟨rfl, by decide +kernel⟩

end Maloader
