import Maloader.Lib.Once
import Maloader.Host.Model

/-!
# The resolver and its static variables

`resolve_macho_import_symbol` keeps the handles of libc and libm once it has them, and fills the
variables that Darwin's `stdin`, `stdout` and `stderr` are bound to when an import asks for them.

* `LiveHost`: a host whose `dlopen` may answer differently from call to call, and whose global scope may
  change with what has been opened.
* `openHostLibrary`, of which `openHostLibc` and `openHostLibm` are the two cases, `handOut`,
  `resolveImport`, `resolveImports`: one import, and a sequence of imports, over the static variables.
* `LiveHost.at`, **`resolveImport_eq`**: an import is resolved as on the host as it is afterwards.
* `Statics.Sound`, **`resolveImports_statics`**: the static variables after any sequence of imports.
* `LiveHost.Steady`, **`resolveImports_steady`**: where `dlopen` always answers the same, the resolver is a
  function of the name.
-/

namespace Maloader

open ByteLib OnceLib

/-- A host: `dlopen` and `dlsym` are asked after the calls of `dlopen` made so far. Those calls bear on what
the global scope has, and not on what a library has. -/
structure LiveHost where
  dlopen : List CString → CString → Addr
  dlsym : List CString → Addr → CString → Addr
  dlsym_library : ∀ log log' library name, library ≠ rtldDefault →
    dlsym log library name = dlsym log' library name
  addressOf : LoaderSymbol → Addr
  stdin : Addr
  stdout : Addr
  stderr : Addr

/-- The static variables of the resolver, and the `dlopen` calls it has made. -/
structure Statics where
  libcHandle : Addr
  libmHandle : Addr
  malStdinp : Addr
  malStdoutp : Addr
  malStderrp : Addr
  opened : List CString

/-- The variables at the start of the process. -/
def Statics.zero : Statics := ⟨0#64, 0#64, 0#64, 0#64, 0#64, []⟩

/-- The libraries whose handles are kept. -/
inductive HostLibrary
  | libc | libm
  deriving DecidableEq

/-- The name a library is opened under. -/
def HostLibrary.name : HostLibrary → CString
  | .libc => libcName
  | .libm => libmName

/-- The handle that is kept of a library. -/
def Statics.held (s : Statics) : HostLibrary → Addr
  | .libc => s.libcHandle
  | .libm => s.libmHandle

/-- A library is opened unless its handle is kept. -/
def openHostLibrary (H : LiveHost) (s : Statics) (library : HostLibrary) : Addr × Statics :=
  let r := askOnce H.dlopen 0#64 s.opened (s.held library) library.name
  match library with
  | .libc => (r.1, { s with libcHandle := r.1, opened := r.2 })
  | .libm => (r.1, { s with libmHandle := r.1, opened := r.2 })

/-- `open_host_libc`. -/
def openHostLibc (H : LiveHost) (s : Statics) : Addr × Statics := openHostLibrary H s .libc

/-- `open_host_libm`. -/
def openHostLibm (H : LiveHost) (s : Statics) : Addr × Statics := openHostLibrary H s .libm

/-- What is done to the variables when the address of a symbol is handed out. -/
def handOut (H : LiveHost) (s : Statics) : LoaderSymbol → Statics
  | .malStdinp => { s with malStdinp := H.stdin }
  | .malStdoutp => { s with malStdoutp := H.stdout }
  | .malStderrp => { s with malStderrp := H.stderr }
  | _ => s

/-- `resolve_macho_import_symbol` over the static variables. -/
def resolveImport (H : LiveHost) (s : Statics) (machoName : CString) : Addr × Statics :=
  let namebuf := normalizeMachoSymbolName machoName namebufSize
  match darwinShim namebuf with
  | some symbol => (H.addressOf symbol, handOut H s symbol)
  | none =>
    let (libc, s) := openHostLibc H s
    if libc ≠ 0#64 ∧ H.dlsym s.opened libc namebuf ≠ 0#64 then (H.dlsym s.opened libc namebuf, s)
    else
      let (libm, s) := openHostLibm H s
      if libm ≠ 0#64 ∧ H.dlsym s.opened libm namebuf ≠ 0#64 then (H.dlsym s.opened libm namebuf, s)
      else (H.dlsym s.opened rtldDefault namebuf, s)

/-- The imports one after the other: what they are resolved to, and the variables at the end. -/
def resolveImports (H : LiveHost) : List CString → Statics → List Addr × Statics
  | [], s => ([], s)
  | n :: ns, s =>
    let r := resolveImport H s n
    let rs := resolveImports H ns r.2
    (r.1 :: rs.1, rs.2)

/-! ## One import -/

/-- The host whose libraries have the given handles, after the given calls. -/
def LiveHost.withHandles (H : LiveHost) (handle : CString → Addr) (log : List CString) : Host :=
  ⟨handle, H.dlsym log, H.addressOf⟩

/-- The handles held. -/
def Statics.handle (s : Statics) (name : CString) : Addr :=
  if name = libcName then s.libcHandle else if name = libmName then s.libmHandle else 0#64

/-- The host as it is when the variables are `s`. -/
def LiveHost.at (H : LiveHost) (s : Statics) : Host := H.withHandles s.handle s.opened

/-- The variable a symbol is the address of. -/
def Statics.stream (s : Statics) : LoaderSymbol → Addr
  | .malStdinp => s.malStdinp
  | .malStdoutp => s.malStdoutp
  | .malStderrp => s.malStderrp
  | _ => 0#64

/-- What the host has for the variable. -/
def LiveHost.stream (H : LiveHost) : LoaderSymbol → Addr
  | .malStdinp => H.stdin
  | .malStdoutp => H.stdout
  | .malStderrp => H.stderr
  | _ => 0#64

section OpenLibrary

variable (H : LiveHost) (s : Statics) (library : HostLibrary)

@[simp] theorem stream_openHostLibrary : (openHostLibrary H s library).2.stream = s.stream := by
  funext symbol
  cases library <;> cases symbol <;> rfl

theorem fst_openHostLibrary : (openHostLibrary H s library).1 =
    (askOnce H.dlopen 0#64 s.opened (s.held library) library.name).1 := by
  cases library <;> rfl

theorem opened_openHostLibrary : (openHostLibrary H s library).2.opened =
    (askOnce H.dlopen 0#64 s.opened (s.held library) library.name).2 := by
  cases library <;> rfl

theorem held_openHostLibrary (other : HostLibrary) : (openHostLibrary H s library).2.held other =
    if other = library then (openHostLibrary H s library).1 else s.held other := by
  cases library <;> cases other <;> rfl

end OpenLibrary

theorem HostLibrary.name_injective : Function.Injective HostLibrary.name := by
  intro library other
  cases library <;> cases other <;> decide

variable (H : LiveHost) (s : Statics)

theorem stream_handOut (symbol t : LoaderSymbol) :
    (handOut H s symbol).stream t = if t = symbol then H.stream t else s.stream t := by
  cases symbol <;> cases t <;> rfl

/-- **What an import does**: it is a shim, or libc has it, or libm is asked too. -/
theorem resolveImport_cases (machoName : CString) :
    let namebuf := normalizeMachoSymbolName machoName namebufSize
    let libc := openHostLibc H s
    let libm := openHostLibm H libc.2
    (∃ symbol, darwinShim namebuf = some symbol ∧
      resolveImport H s machoName = (H.addressOf symbol, handOut H s symbol)) ∨
    (darwinShim namebuf = none ∧ libc.1 ≠ 0#64 ∧ H.dlsym libc.2.opened libc.1 namebuf ≠ 0#64 ∧
      resolveImport H s machoName = (H.dlsym libc.2.opened libc.1 namebuf, libc.2)) ∨
    (darwinShim namebuf = none ∧ ¬ (libc.1 ≠ 0#64 ∧ H.dlsym libm.2.opened libc.1 namebuf ≠ 0#64) ∧
      resolveImport H s machoName =
        (if libm.1 ≠ 0#64 ∧ H.dlsym libm.2.opened libm.1 namebuf ≠ 0#64 then
            H.dlsym libm.2.opened libm.1 namebuf
          else H.dlsym libm.2.opened rtldDefault namebuf, libm.2)) := by
  intro namebuf libc libm
  cases hshim : darwinShim namebuf with
  | some symbol =>
    refine .inl ⟨symbol, rfl, ?_⟩
    simp only [resolveImport, namebuf, hshim]
  | none =>
    have hnone : darwinShim (normalizeMachoSymbolName machoName namebufSize) = none := hshim
    by_cases hlibc : libc.1 ≠ 0#64 ∧ H.dlsym libc.2.opened libc.1 namebuf ≠ 0#64
    · refine .inr (.inl ⟨rfl, hlibc.1, hlibc.2, ?_⟩)
      simp only [resolveImport, hnone]
      exact if_pos hlibc
    · refine .inr (.inr ⟨rfl, fun ⟨hopen, hsym⟩ => hlibc ⟨hopen, ?_⟩, ?_⟩)
      · rwa [H.dlsym_library _ libm.2.opened _ _ hopen]
      · simp only [resolveImport, hnone]
        refine (if_neg hlibc).trans ?_
        split_ifs <;> rfl

/-- **An import** is resolved as on the host as it is afterwards. -/
theorem resolveImport_eq (machoName : CString) :
    (resolveImport H s machoName).1 =
      resolveMachoImportSymbol (H.at (resolveImport H s machoName).2) (some machoName) := by
  have hlibm : ∀ t : Statics, t.handle libmName = t.libmHandle := fun t => if_neg (by decide)
  simp only [resolveMachoImportSymbol]
  rcases resolveImport_cases H s machoName with ⟨symbol, hshim, hrun⟩ | ⟨hshim, hlibc, hsym, hrun⟩ |
    ⟨hshim, hlibc, hrun⟩
  · simp only [hrun, hshim]
    rfl
  · simp only [hrun, hshim]
    exact (if_pos ⟨hlibc, hsym⟩).symm
  · simp only [hrun, hshim]
    refine Eq.trans ?_ (if_neg hlibc).symm
    simp only [LiveHost.at, LiveHost.withHandles, hlibm]
    rfl

/-! ## A sequence of imports -/

/-- Some import is for a symbol of the loader. -/
def AsksFor (names : List CString) (symbol : LoaderSymbol) : Prop :=
  ∃ n ∈ names, darwinShim (normalizeMachoSymbolName n namebufSize) = some symbol

/-- What is known of the variables behind a sequence of imports. -/
structure Statics.Sound (H : LiveHost) (names : List CString) (s : Statics) : Prop where
  held : ∀ library : HostLibrary, Held H.dlopen 0#64 library.name s.opened (s.held library)
  opened : ∀ name ∈ s.opened, ∃ library : HostLibrary, library.name = name
  asked : ∀ symbol, AsksFor names symbol → s.stream symbol = H.stream symbol
  unasked : ∀ symbol, ¬ AsksFor names symbol → s.stream symbol = 0#64

theorem sound_zero (H : LiveHost) : Statics.zero.Sound H [] where
  held library := by cases library <;> exact .nil _ _ _
  opened name h := absurd h List.not_mem_nil
  asked symbol h := by
    obtain ⟨n, hn, -⟩ := h
    exact absurd hn List.not_mem_nil
  unasked symbol _ := by cases symbol <;> rfl

variable {H s} {names : List CString}

theorem asksFor_append {names' : List CString} {symbol : LoaderSymbol} :
    AsksFor (names ++ names') symbol ↔ AsksFor names symbol ∨ AsksFor names' symbol := by
  simp only [AsksFor, List.mem_append, or_and_right, exists_or]

theorem Statics.Sound.openHostLibrary (h : s.Sound H names) (library : HostLibrary) :
    (openHostLibrary H s library).2.Sound H names where
  held other := by
    rw [held_openHostLibrary, opened_openHostLibrary, fst_openHostLibrary]
    split_ifs with heq
    · rw [heq]
      exact (h.held library).askOnce
    · exact (h.held other).askOnce_of_ne (HostLibrary.name_injective.ne (Ne.symm heq)) (s.held library)
  opened name hname := by
    rw [opened_openHostLibrary] at hname
    rcases mem_log_askOnce hname with hold | hnew
    · exact h.opened name hold
    · exact ⟨library, hnew.symm⟩
  asked := by
    rw [stream_openHostLibrary]
    exact h.asked
  unasked := by
    rw [stream_openHostLibrary]
    exact h.unasked

theorem Statics.Sound.append_of_none (h : s.Sound H names) {n : CString}
    (hshim : darwinShim (normalizeMachoSymbolName n namebufSize) = none) : s.Sound H (names ++ [n]) := by
  have hiff : ∀ symbol, AsksFor (names ++ [n]) symbol ↔ AsksFor names symbol := by
    intro symbol
    rw [asksFor_append, or_iff_left]
    rintro ⟨n', hn', hsome⟩
    rw [List.mem_singleton.mp hn', hshim] at hsome
    cases hsome
  exact ⟨h.held, h.opened, fun symbol hs => h.asked symbol ((hiff symbol).mp hs),
    fun symbol hs => h.unasked symbol (mt (hiff symbol).mpr hs)⟩

theorem Statics.Sound.handOut (h : s.Sound H names) {n : CString} {symbol : LoaderSymbol}
    (hshim : darwinShim (normalizeMachoSymbolName n namebufSize) = some symbol) :
    (handOut H s symbol).Sound H (names ++ [n]) := by
  have hiff : ∀ t, AsksFor (names ++ [n]) t ↔ AsksFor names t ∨ t = symbol := by
    intro t
    rw [asksFor_append]
    refine or_congr_right ⟨?_, ?_⟩
    · rintro ⟨n', hn', hsome⟩
      rw [List.mem_singleton.mp hn', hshim] at hsome
      exact (Option.some.inj hsome).symm
    · rintro rfl
      exact ⟨n, List.mem_singleton_self n, hshim⟩
  have hkeep : (Maloader.handOut H s symbol).opened = s.opened ∧
      ∀ library, (Maloader.handOut H s symbol).held library = s.held library := by
    cases symbol <;> exact ⟨rfl, fun library => by cases library <;> rfl⟩
  obtain ⟨hopened, hheld⟩ := hkeep
  refine ⟨fun library => ?_, ?_, fun t ht => ?_, fun t ht => ?_⟩
  · rw [hopened, hheld]
    exact h.held library
  · rw [hopened]
    exact h.opened
  · rw [stream_handOut]
    split_ifs with heq
    · rfl
    · exact h.asked t (((hiff t).mp ht).resolve_right heq)
  · rw [hiff, not_or] at ht
    rw [stream_handOut, if_neg ht.2]
    exact h.unasked t ht.1

/-- **One import** keeps what is known. -/
theorem Statics.Sound.resolveImport (h : s.Sound H names) (n : CString) :
    (resolveImport H s n).2.Sound H (names ++ [n]) := by
  rcases resolveImport_cases H s n with ⟨symbol, hshim, hrun⟩ | ⟨hshim, -, -, hrun⟩ | ⟨hshim, -, hrun⟩
  · rw [hrun]
    exact h.handOut hshim
  · rw [hrun]
    exact (h.openHostLibrary .libc).append_of_none hshim
  · rw [hrun]
    exact ((h.openHostLibrary .libc).openHostLibrary .libm).append_of_none hshim

theorem Statics.Sound.resolveImports (h : s.Sound H names) (names' : List CString) :
    (resolveImports H names' s).2.Sound H (names ++ names') := by
  induction names' generalizing s names with
  | nil => rwa [List.append_nil]
  | cons n ns ih =>
    have hrest := ih (h.resolveImport n)
    rwa [List.append_assoc, List.singleton_append] at hrest

theorem resolveImports_append (H : LiveHost) (names names' : List CString) (s : Statics) :
    resolveImports H (names ++ names') s =
      ((resolveImports H names s).1 ++ (resolveImports H names' (resolveImports H names s).2).1,
        (resolveImports H names' (resolveImports H names s).2).2) := by
  induction names generalizing s with
  | nil => rfl
  | cons n ns ih =>
    rw [List.cons_append, resolveImports, ih]
    rfl

theorem length_resolveImports (H : LiveHost) (names : List CString) (s : Statics) :
    (resolveImports H names s).1.length = names.length := by
  induction names generalizing s with
  | nil => rfl
  | cons n ns ih => exact congrArg (· + 1) (ih _)

/-- **The static variables after any sequence of imports**, whatever `dlopen` answers: for each library
every call but the last failed, and the last answer is the handle; no other library is opened; a stream
variable is set once its symbol has been handed out, and only then. Each import is resolved as on the host
as it is behind the import, with the handles held there. -/
theorem resolveImports_statics (H : LiveHost) (names : List CString) :
    (resolveImports H names Statics.zero).2.Sound H names ∧
      ∀ front n back, names = front ++ n :: back →
        (resolveImports H names Statics.zero).1[front.length]? =
          some (resolveMachoImportSymbol (H.at (resolveImports H (front ++ [n]) Statics.zero).2)
            (some n)) := by
  refine ⟨(sound_zero H).resolveImports names, ?_⟩
  rintro front n back rfl
  rw [resolveImports_append, resolveImports_append, ← length_resolveImports H front Statics.zero,
    List.getElem?_append_right le_rfl, Nat.sub_self]
  exact congrArg some (resolveImport_eq H _ n)

/-! ## Answers that do not change -/

/-- `dlopen` always answers `d`, and what the global scope has depends on the libraries in it alone. -/
structure LiveHost.Steady (H : LiveHost) (d : CString → Addr) : Prop where
  dlopen : ∀ log name, H.dlopen log name = d name
  scope : ∀ log log' name, (∀ k, d k ≠ 0#64 → (k ∈ log ↔ k ∈ log')) →
    H.dlsym log rtldDefault name = H.dlsym log' rtldDefault name

/-- The libraries that are opened before the global scope is searched. -/
def scopeLog : List CString := [libcName, libmName]

theorem Statics.Sound.mem_opened_iff (h : s.Sound H names) {d : CString → Addr}
    (hheld : ∀ library, s.held library = d library.name) {k : CString} (hk : d k ≠ 0#64) :
    k ∈ s.opened ↔ k ∈ scopeLog := by
  constructor
  · intro hmem
    obtain ⟨library, rfl⟩ := h.opened k hmem
    cases library <;> simp [scopeLog, HostLibrary.name]
  · intro hmem
    obtain ⟨library, rfl⟩ : ∃ library : HostLibrary, library.name = k := by
      rcases List.mem_pair.mp hmem with rfl | rfl
      · exact ⟨.libc, rfl⟩
      · exact ⟨.libm, rfl⟩
    exact (h.held library).mem_of_ne (by rwa [hheld])

section Steady

variable {d : CString → Addr} (hd : H.Steady d) (h : s.Sound H names)
include hd h

theorem Statics.Sound.fst_openHostLibrary (library : HostLibrary) :
    (Maloader.openHostLibrary H s library).1 = d library.name := by
  have hheld := (h.held library).eq_null_or_answer
  simp only [hd.dlopen, exists_const] at hheld
  rw [Maloader.fst_openHostLibrary, askOnce]
  split_ifs with hnull
  · exact hd.dlopen _ _
  · exact hheld.resolve_left hnull

theorem resolveImport_steady (machoName : CString) : (resolveImport H s machoName).1 =
    resolveMachoImportSymbol (H.withHandles d scopeLog) (some machoName) := by
  have hlibc := h.openHostLibrary .libc
  have hlibm := hlibc.openHostLibrary .libm
  have hc : (openHostLibc H s).1 = d libcName := h.fst_openHostLibrary hd .libc
  have hm : (openHostLibm H (openHostLibc H s).2).1 = d libmName := hlibc.fst_openHostLibrary hd .libm
  have hheld : ∀ library, (openHostLibm H (openHostLibc H s).2).2.held library = d library.name := by
    intro library
    cases library with
    | libc => exact hc
    | libm => exact hm
  have hscope : ∀ library name,
      H.dlsym (openHostLibm H (openHostLibc H s).2).2.opened library name =
        H.dlsym scopeLog library name := by
    intro library name
    by_cases hlibrary : library = rtldDefault
    · rw [hlibrary]
      exact hd.scope _ _ _ fun k hk => hlibm.mem_opened_iff hheld hk
    · exact H.dlsym_library _ _ _ _ hlibrary
  simp only [resolveMachoImportSymbol]
  rcases resolveImport_cases H s machoName with ⟨symbol, hshim, hrun⟩ | ⟨hshim, hopen, hsym, hrun⟩ |
    ⟨hshim, hnot, hrun⟩
  · simp only [hrun, hshim]
    rfl
  · rw [H.dlsym_library _ scopeLog _ _ hopen] at hsym hrun
    rw [hc] at hopen hsym hrun
    simp only [hrun, hshim]
    exact (if_pos ⟨hopen, hsym⟩).symm
  · rw [hscope, hc] at hnot
    simp only [hrun, hshim, hscope, hm]
    exact (if_neg hnot).symm

end Steady

theorem resolveImports_eq_map {d : CString → Addr} (hd : H.Steady d) (h : s.Sound H names)
    (names' : List CString) : (resolveImports H names' s).1 =
      names'.map fun n => resolveMachoImportSymbol (H.withHandles d scopeLog) (some n) := by
  induction names' generalizing s names with
  | nil => rfl
  | cons n ns ih =>
    rw [resolveImports, List.map_cons, ← ih (h.resolveImport n), ← resolveImport_steady hd h n]

/-- **The resolver is a function of the name** where `dlopen` always answers the same for a library: the
variables it keeps between imports make no difference, and a library that opens is opened once. The global
scope, searched last, then has libc and libm. -/
theorem resolveImports_steady (H : LiveHost) {d : CString → Addr} (hd : H.Steady d)
    (names : List CString) :
    let r := resolveImports H names Statics.zero
    r.1 = names.map (fun n => resolveMachoImportSymbol (H.withHandles d scopeLog) (some n)) ∧
      ∀ library : HostLibrary, d library.name ≠ 0#64 →
        (r.2.opened.filter (· = library.name)).length ≤ 1 := by
  intro r
  have hsound : r.2.Sound H names := (sound_zero H).resolveImports names
  refine ⟨resolveImports_eq_map hd (sound_zero H) names, fun library hne => ?_⟩
  exact (hsound.held library).length_filter_le_one fun log => by rwa [hd.dlopen]

/-- libc has `puts`, libm `sin`, and the global scope `getpid` once libc is in it. -/
def threeHost : LiveHost where
  dlopen _ name := if name = libcName then 1#64 else if name = libmName then 2#64 else 0#64
  dlsym log library name :=
    if library = 1#64 then if name = lit "puts" then 3#64 else 0#64
    else if library = 2#64 then if name = lit "sin" then 4#64 else 0#64
    else if library = rtldDefault ∧ libcName ∈ log ∧ name = lit "getpid" then 5#64 else 0#64
  dlsym_library log log' library name h := by simp only [h, false_and]
  addressOf symbol := BitVec.ofNat 64 (0x100 + symbol.ctorIdx)
  stdin := 0#64
  stdout := 0#64
  stderr := 0#64

theorem resolveImports_steady_threeHost :
    let names := [lit "_puts", lit "_sin", lit "_getpid", lit "_atexit", lit "_puts"]
    (resolveImports threeHost names Statics.zero).1 = [3#64, 4#64, 5#64, 0x10c#64, 3#64] ∧
      ((resolveImports threeHost names Statics.zero).2.opened.filter (· = libcName)).length ≤ 1 := by
  intro names
  have hd : threeHost.Steady (threeHost.dlopen []) := by
    refine ⟨fun _ _ => rfl, fun log log' name h => ?_⟩
    simp only [threeHost, h libcName (by decide)]
  obtain ⟨hresults, hopened⟩ := resolveImports_steady threeHost hd names
  exact ⟨hresults.trans (by decide +kernel), hopened .libc (by decide)⟩

end Maloader
