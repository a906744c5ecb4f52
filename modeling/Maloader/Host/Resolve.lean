import Maloader.Chained.Model
import Maloader.Host.Classic

/-!
# Two resolvers

The chained path and the classic path look a name up on their own. They agree on a name exactly if
no special case of either applies and both lookups, each in its own order and under its own spelling
of the name, find the same.

* `StoresTo`, `PathsAgree`: a step stores to a slot; two steps treat their slots alike.
* `Host.OwnSymbols`, `Host.Standard`: what is assumed of a host.
* `Host.Standard.hostValue_eq`, `Host.Standard.resolveMachoImportSymbol_of_none`: each resolver on
  such a host.
* **`pathsAgree_iff`**, `mmap_paths_differ`.
-/

namespace Maloader

open ByteLib

/-! ## Hosts -/

variable (H : Host)

/-- The loader's own functions and objects: no two at one address, none at `NULL`, and none of them
found in a library. -/
structure Host.OwnSymbols : Prop where
  ne_null : ∀ s, H.addressOf s ≠ 0#64
  injective : Function.Injective H.addressOf
  libc_ne : ∀ name s, H.dlsym (H.dlopen libcName) name ≠ H.addressOf s
  libm_ne : ∀ name s, H.dlsym (H.dlopen libmName) name ≠ H.addressOf s

/-- libc and libm open, no other of the listed libraries does, and the global scope has no name that
neither of the two has. -/
structure Host.Standard (dList : List CString) : Prop where
  libc : H.dlopen libcName ≠ 0#64
  libm : H.dlopen libmName ≠ 0#64
  others : ∀ name ∈ dList, name ≠ libcName → name ≠ libmName → H.dlopen name = 0#64
  default : ∀ name, H.dlsym (H.dlopen libcName) name = 0#64 →
    H.dlsym (H.dlopen libmName) name = 0#64 → H.dlsym rtldDefault name = 0#64

/-- A name looked up in libc, then in libm. -/
def Host.libcFirst (name : CString) : Addr :=
  if H.dlsym (H.dlopen libcName) name ≠ 0#64 then H.dlsym (H.dlopen libcName) name
  else H.dlsym (H.dlopen libmName) name

/-- A name looked up in libm, then in libc. -/
def Host.libmFirst (name : CString) : Addr :=
  if H.dlsym (H.dlopen libmName) name ≠ 0#64 then H.dlsym (H.dlopen libmName) name
  else H.dlsym (H.dlopen libcName) name

/-- An address, or nothing for `NULL`. -/
def nonNull (a : Addr) : Option Addr := if a = 0#64 then none else some a

theorem nonNull_inj {a b : Addr} : nonNull a = nonNull b ↔ a = b := by
  unfold nonNull
  split_ifs with ha hb hb <;> simp_all
  exact fun h => hb h.symm

/-! ## The classic resolver -/

theorem hostValue_append (libs libs' : List Addr) (name : CString) :
    hostValue H (libs ++ libs') name = (hostValue H libs' name).or (hostValue H libs name) := by
  rw [hostValue, List.filterMap_append, List.getLast?_append, ← hostValue, ← hostValue]

theorem hostValue_eq_none {libs : List Addr} {name : CString}
    (h : ∀ library ∈ libs, bindValue H library name = none) : hostValue H libs name = none := by
  rw [hostValue, List.filterMap_eq_nil_iff.mpr h]
  rfl

variable {H} {dList : List CString}

theorem Host.Standard.openLibraries_eq (h : H.Standard dList) :
    ∃ libs : List Addr, openLibraries H (boundLibraries dList) =
        libs ++ [H.dlopen libcName, H.dlopen libmName] ∧
      ∀ library ∈ libs, library = H.dlopen libcName ∨ library = H.dlopen libmName := by
  refine ⟨openLibraries H dList, ?_, ?_⟩
  · simp [openLibraries, boundLibraries, h.libc, h.libm]
  · intro library hl
    obtain ⟨hmem, hne⟩ := List.mem_filter.mp hl
    obtain ⟨name, hname, rfl⟩ := List.mem_map.mp hmem
    by_contra hcon
    rw [not_or] at hcon
    have hzero := h.others name hname (fun e => hcon.1 (congrArg _ e)) fun e => hcon.2 (congrArg _ e)
    simp [hzero] at hne

/-- **The classic path** asks libm, then libc. -/
theorem Host.Standard.hostValue_eq (h : H.Standard dList) (name : CString) :
    hostValue H (openLibraries H (boundLibraries dList)) name =
      (bindValue H (H.dlopen libmName) name).or (bindValue H (H.dlopen libcName) name) := by
  obtain ⟨libs, hlibs, hmem⟩ := h.openLibraries_eq
  have hlast : hostValue H [H.dlopen libcName, H.dlopen libmName] name =
      (bindValue H (H.dlopen libmName) name).or (bindValue H (H.dlopen libcName) name) := by
    rw [hostValue_cons, hostValue_cons]
    rfl
  rw [hlibs, hostValue_append, hlast]
  cases hv : (bindValue H (H.dlopen libmName) name).or (bindValue H (H.dlopen libcName) name) with
  | some v => rfl
  | none =>
    rw [Option.or_eq_none_iff] at hv
    rw [Option.none_or]
    apply hostValue_eq_none
    intro library hl
    rcases hmem library hl with rfl | rfl
    · exact hv.2
    · exact hv.1

theorem Host.Standard.hostValue_of_ne (h : H.Standard dList) {name : CString}
    (hm : name ≠ lit "mmap") (hg : name ≠ lit "__stack_chk_guard") :
    hostValue H (openLibraries H (boundLibraries dList)) name = nonNull (H.libmFirst name) := by
  rw [h.hostValue_eq, bindValue, bindValue, if_neg hm, if_neg hm, if_neg hg, if_neg hg, nonNull,
    Host.libmFirst]
  split_ifs <;> simp_all

/-! ## The chained resolver -/

theorem resolveMachoImportSymbol_of_shim {name : CString} {s : LoaderSymbol}
    (hs : darwinShim (normalizeMachoSymbolName name namebufSize) = some s) :
    resolveMachoImportSymbol H (some name) = H.addressOf s := by
  simp only [resolveMachoImportSymbol, hs]

/-- **The chained path** asks libc, then libm. -/
theorem Host.Standard.resolveMachoImportSymbol_of_none (h : H.Standard dList) {name : CString}
    (hs : darwinShim (normalizeMachoSymbolName name namebufSize) = none) :
    resolveMachoImportSymbol H (some name) =
      H.libcFirst (normalizeMachoSymbolName name namebufSize) := by
  simp only [resolveMachoImportSymbol, hs, h.libc, h.libm, Host.libcFirst, ne_eq, not_false_eq_true,
    true_and]
  split_ifs with h1 h2
  · exact (h.default _ h1 h2).trans h2.symm
  · rfl
  · rfl

/-! ## Agreement -/

/-- The step from `c` to `c'` stores to the slot at `a`. -/
def StoresTo (c c' : MachContext) (a : Addr) : Prop :=
  ∃ v, Event.store a v ∈ c'.trace.drop c.trace.length

/-- The step from `c` to `c'` stores `value` to the slot at `a`, or leaves it alone. -/
def Sets (c c' : MachContext) (a : Addr) (value : Option Addr) : Prop :=
  (StoresTo c c' a ↔ value ≠ none) ∧ ∀ v, value = some v → load64 c'.mem a = v

/-- The step from `c` to `c'` and the step from `d` to `d'` treat their slots at `a` and `b` alike:
both leave them alone, or both leave the same value in them. -/
def PathsAgree (c c' : MachContext) (a : Addr) (d d' : MachContext) (b : Addr) : Prop :=
  (StoresTo c c' a ↔ StoresTo d d' b) ∧
    (StoresTo c c' a → load64 c'.mem a = load64 d'.mem b)

theorem pathsAgree_iff_eq {c c' d d' : MachContext} {a b : Addr} {x y : Option Addr}
    (hx : Sets c c' a x) (hy : Sets d d' b y) : PathsAgree c c' a d d' b ↔ x = y := by
  rw [PathsAgree, hx.1, hy.1]
  constructor
  · rintro ⟨hiff, hload⟩
    cases x with
    | none => exact (not_not.mp (mt hiff.mpr (by simp))).symm
    | some v =>
      obtain ⟨v', rfl⟩ := Option.ne_none_iff_exists'.mp (hiff.mp (by simp))
      rw [← hx.2 v rfl, hload (by simp), hy.2 v' rfl]
  · rintro rfl
    refine ⟨Iff.rfl, fun hne => ?_⟩
    obtain ⟨v, rfl⟩ := Option.ne_none_iff_exists'.mp hne
    rw [hx.2 v rfl, hy.2 v rfl]

theorem storesTo_stored_iff (c : MachContext) (ws : List (Addr × Addr)) (a : Addr) :
    StoresTo c (c.stored ws) a ↔ lastWrite (storeValues ws) a ≠ none := by
  have hdrop : (c.stored ws).trace.drop c.trace.length = ws.map fun s => .store s.1 s.2 :=
    List.drop_left
  rw [StoresTo, hdrop]
  constructor
  · rintro ⟨v, hv⟩
    obtain ⟨s, hs, he⟩ := List.mem_map.mp hv
    obtain ⟨rfl, -⟩ := Event.store.inj he
    exact lastWrite_ne_none (s := (s.1, s.2.toNat)) (List.mem_map_of_mem hs)
  · contrapose!
    intro h
    apply lastWrite_eq_none
    rintro s hs rfl
    obtain ⟨w, hw, rfl⟩ := List.mem_map.mp hs
    exact h w.2 (List.mem_map.mpr ⟨w, hw, rfl⟩)

theorem sets_applyChainedBind (E : Env) (d : MachContext) (b : Addr) (n : CString) :
    Sets d (applyChainedBind (H.env E) d b n 0#64).2 b
      (nonNull (resolveMachoImportSymbol H (some n))) := by
  have henv : (H.env E).resolve n = resolveMachoImportSymbol H (some n) := rfl
  simp only [Sets, applyChainedBind, henv, nonNull]
  split_ifs with h0
  · simp [StoresTo]
  · refine ⟨by simp [StoresTo], ?_⟩
    rintro v ⟨⟩
    rw [BitVec.add_zero, load64, store64, loadLE_storeLE_self _ _ (by norm_num)]
    exact ofNat_toNat_mod _

variable {c : MachContext} {r : BindInfo} {n : CString}

theorem sets_bound (hr : r ∈ c.bList) (hn : r.funcName = some n) (ha : c.imgAddr < r.address)
    (hapart : c.bList.Pairwise fun r r' => SlotsApart 8 r.address r'.address) :
    Sets c (c.bound H) r.address
      (hostValue H (openLibraries H (boundLibraries c.dList)) (dropUnderscore n)) := by
  have hlast := lastWrite_bindWrites H (hapart.imp fun h => h.ne (by norm_num)) hr hn ha
    (openLibraries H (boundLibraries c.dList))
  have hload := load64_applyWrites_bindWrites H hapart hr hn ha
    (openLibraries H (boundLibraries c.dList)) c.mem
  constructor
  · rw [MachContext.bound]
    refine (storesTo_stored_iff { c with dList := boundLibraries c.dList } _ _).trans ?_
    rw [hlast, ne_eq, Option.map_eq_none_iff]
  · intro v hv
    rw [hv] at hload
    exact hload

theorem Host.OwnSymbols.libcFirst_ne (h : H.OwnSymbols) (name : CString) (s : LoaderSymbol) :
    H.libcFirst name ≠ H.addressOf s := by
  unfold Host.libcFirst
  split_ifs
  · exact h.libc_ne name s
  · exact h.libm_ne name s

theorem Host.OwnSymbols.libmFirst_ne (h : H.OwnSymbols) (name : CString) (s : LoaderSymbol) :
    H.libmFirst name ≠ H.addressOf s := by
  unfold Host.libmFirst
  split_ifs
  · exact h.libm_ne name s
  · exact h.libc_ne name s

/-- The wrapper of `mmap` comes from the classic path only. -/
theorem hostValue_mmap_ne (hown : H.OwnSymbols) (hstd : H.Standard dList)
    (hm : dropUnderscore n = lit "mmap") :
    hostValue H (openLibraries H (boundLibraries dList)) (dropUnderscore n) ≠
      nonNull (resolveMachoImportSymbol H (some n)) := by
  have hnorm : normalizeMachoSymbolName n namebufSize = lit "mmap" := by
    rw [normalizeMachoSymbolName, hm]
    decide
  have hshim : darwinShim (normalizeMachoSymbolName n namebufSize) = none := by
    rw [hnorm]
    decide
  rw [hstd.hostValue_eq, hm, bindValue, if_pos rfl, Option.some_or,
    hstd.resolveMachoImportSymbol_of_none hshim, nonNull]
  split_ifs
  · simp
  · exact fun he => hown.libcFirst_ne _ _ (Option.some.inj he).symm

/-- The two paths have a stack guard each. -/
theorem hostValue_guard_ne (hown : H.OwnSymbols) (hstd : H.Standard dList)
    (hg : dropUnderscore n = lit "__stack_chk_guard") :
    hostValue H (openLibraries H (boundLibraries dList)) (dropUnderscore n) ≠
      nonNull (resolveMachoImportSymbol H (some n)) := by
  have hshim : darwinShim (normalizeMachoSymbolName n namebufSize) = some .malStackChkGuard := by
    rw [normalizeMachoSymbolName, hg]
    decide
  have hbind : ∀ library, bindValue H library (lit "__stack_chk_guard") =
      some (H.addressOf .guard) := by
    intro library
    rw [bindValue, if_neg (by decide), if_pos rfl]
  rw [hstd.hostValue_eq, hg, hbind, Option.some_or, resolveMachoImportSymbol_of_shim hshim, nonNull,
    if_neg (hown.ne_null _)]
  intro he
  exact absurd (hown.injective (Option.some.inj he)) (by decide)

/-- **The values of the two paths** are the same exactly if neither has a special case for the name
and both lookups find the same. -/
theorem hostValue_eq_resolve_iff (hown : H.OwnSymbols) (hstd : H.Standard dList) (n : CString) :
    hostValue H (openLibraries H (boundLibraries dList)) (dropUnderscore n) =
        nonNull (resolveMachoImportSymbol H (some n)) ↔
      dropUnderscore n ≠ lit "mmap" ∧ dropUnderscore n ≠ lit "__stack_chk_guard" ∧
        darwinShim (normalizeMachoSymbolName n namebufSize) = none ∧
        H.libmFirst (dropUnderscore n) = H.libcFirst (normalizeMachoSymbolName n namebufSize) := by
  by_cases hm : dropUnderscore n = lit "mmap"
  · exact iff_of_false (hostValue_mmap_ne hown hstd hm) fun h => h.1 hm
  by_cases hg : dropUnderscore n = lit "__stack_chk_guard"
  · exact iff_of_false (hostValue_guard_ne hown hstd hg) fun h => h.2.1 hg
  rw [hstd.hostValue_of_ne hm hg]
  cases hs : darwinShim (normalizeMachoSymbolName n namebufSize) with
  | some s =>
    rw [resolveMachoImportSymbol_of_shim hs, nonNull_inj]
    exact iff_of_false (hown.libmFirst_ne _ s) fun h => by simp at h
  | none =>
    rw [hstd.resolveMachoImportSymbol_of_none hs, nonNull_inj]
    exact ⟨fun h => ⟨hm, hg, rfl, h⟩, fun h => h.2.2.2⟩

/-- **The two binding paths agree on a name** exactly if it is neither `mmap` nor
`__stack_chk_guard`, is no Darwin shim once normalised, and libm-then-libc finds for it what
libc-then-libm finds for the normalised name. -/
theorem pathsAgree_iff (E : Env) (hown : H.OwnSymbols) (hstd : H.Standard c.dList)
    (hnamed : ∀ r ∈ c.bList, r.Named c.imgAddr)
    (hapart : c.bList.Pairwise fun r r' => SlotsApart 8 r.address r'.address)
    (hr : r ∈ c.bList) (hn : r.funcName = some n) (ha : c.imgAddr < r.address) (d : MachContext)
    (b : Addr) :
    ∃ c', doBind H c = some (0, c') ∧
      (PathsAgree c c' r.address d (applyChainedBind (H.env E) d b n 0#64).2 b ↔
        dropUnderscore n ≠ lit "mmap" ∧ dropUnderscore n ≠ lit "__stack_chk_guard" ∧
          darwinShim (normalizeMachoSymbolName n namebufSize) = none ∧
          H.libmFirst (dropUnderscore n) = H.libcFirst (normalizeMachoSymbolName n namebufSize)) := by
  refine ⟨c.bound H, doBind_eq H c hnamed, ?_⟩
  rw [pathsAgree_iff_eq (sets_bound hr hn ha hapart) (sets_applyChainedBind E d b n)]
  exact hostValue_eq_resolve_iff hown hstd n

/-! ## A small host -/

/-- A host whose libc has `mmap` at `1` and `puts` at `2`; its libm has `sin` at `3`. -/
def smallHost : Host where
  dlopen name := if name = libcName then 0x10#64 else if name = libmName then 0x20#64 else 0#64
  dlsym library name :=
    if library = 0x10#64 ∧ name = lit "mmap" then 1#64
    else if library = 0x10#64 ∧ name = lit "puts" then 2#64
    else if library = 0x20#64 ∧ name = lit "sin" then 3#64
    else 0#64
  addressOf s := BitVec.ofNat 64 (0x100 + s.ctorIdx)

/-- A context with one record, for the name `n`. -/
def recordContext (n : CString) : MachContext :=
  { MachContext.zero fun _ => 0#8 with imgAddr := 0x1000#64, bList := [⟨some n, 0x2000#64⟩] }

theorem ownSymbols_smallHost : smallHost.OwnSymbols := by
  have haddr : ∀ s, smallHost.addressOf s ∉ [0#64, 1#64, 2#64, 3#64] := by
    intro s
    cases s <;> decide
  have hsym : ∀ library name, smallHost.dlsym library name ∈ [0#64, 1#64, 2#64, 3#64] := by
    intro library name
    simp only [smallHost]
    split_ifs <;> decide
  exact {
    ne_null s h := haddr s (by rw [h]; exact List.mem_cons_self)
    injective s t h := by cases s <;> cases t <;> first | rfl | exact absurd h (by decide)
    libc_ne name s h := haddr s (h ▸ hsym _ name)
    libm_ne name s h := haddr s (h ▸ hsym _ name) }

theorem standard_smallHost : smallHost.Standard [] where
  libc := by decide
  libm := by decide
  others name h := by simp at h
  default name _ _ := by simp [smallHost, rtldDefault]

theorem pathsAgree_iff_sin :
    ∃ c', doBind smallHost (recordContext (lit "_sin")) = some (0, c') ∧
      PathsAgree (recordContext (lit "_sin")) c' 0x2000#64 (MachContext.zero fun _ => 0#8)
        (applyChainedBind (smallHost.env Env.plain) (MachContext.zero fun _ => 0#8) 0x3000#64
          (lit "_sin") 0#64).2 0x3000#64 := by
  obtain ⟨c', hdo, hiff⟩ := pathsAgree_iff (H := smallHost) (c := recordContext (lit "_sin"))
    (r := ⟨some (lit "_sin"), 0x2000#64⟩) (n := lit "_sin") Env.plain ownSymbols_smallHost
    standard_smallHost (by simp [recordContext, BindInfo.Named]) (List.pairwise_singleton _ _)
    (List.mem_singleton_self _) rfl (by decide) (MachContext.zero fun _ => 0#8) 0x3000#64
  exact ⟨c', hdo, hiff.mpr (by decide)⟩

/-- **On `_mmap` the paths differ**: the classic path stores the wrapper, the chained path the
function of libc. -/
theorem mmap_paths_differ :
    smallHost.Standard [] ∧ ¬ ∃ c', doBind smallHost (recordContext (lit "_mmap")) = some (0, c') ∧
      PathsAgree (recordContext (lit "_mmap")) c' 0x2000#64 (MachContext.zero fun _ => 0#8)
        (applyChainedBind (smallHost.env Env.plain) (MachContext.zero fun _ => 0#8) 0x3000#64
          (lit "_mmap") 0#64).2 0x3000#64 := by
  refine ⟨standard_smallHost, ?_⟩
  rintro ⟨c', hdo, hagree⟩
  rw [doBind_eq smallHost _ (by simp [recordContext, BindInfo.Named])] at hdo
  obtain rfl : (recordContext (lit "_mmap")).bound smallHost = c' := by simpa using hdo
  have hclassic := sets_bound (H := smallHost) (c := recordContext (lit "_mmap"))
    (r := ⟨some (lit "_mmap"), 0x2000#64⟩) (n := lit "_mmap") (List.mem_singleton_self _) rfl
    (by decide) (List.pairwise_singleton _ _)
  rw [pathsAgree_iff_eq hclassic (sets_applyChainedBind _ _ _ _)] at hagree
  exact hostValue_mmap_ne ownSymbols_smallHost standard_smallHost (by decide) hagree

end Maloader
