import Maloader.Lib.Fallible
import Maloader.Lib.Loops
import Maloader.Lib.Slots
import Maloader.Host.Model

/-!
# The classic binding path

`do_bind` writes every record once for every library that opens, so the last library that knows the
name decides.

* `bindPairs`, `doBind_eq_pairs`: all libraries with all records, one loop for the two.
* `bindValue`, `recordWrite`, `bindWrites`: what a library stores for a name, for a record, and all
  stores in order.
* `MachContext.bound`, **`doBind_eq`**: binding is the list of its stores.
* `NamelessBind`, `doBind_eq_none_iff`: exactly when binding reads a name at `NULL`.
* `hostValue`, `lastWrite_bindWrites`, **`load64_applyWrites_bindWrites`**: what a slot holds
  afterwards.
-/

namespace Maloader

open ByteLib ActionLib FallibleLib

variable (H : Host)

/-! ## Libraries and records -/

/-- The handles of the libraries that open, in order. -/
def openLibraries (names : List CString) : List Addr := (names.map H.dlopen).filter (· ≠ 0#64)

/-- All libraries `do_bind` tries: the listed ones, then libc and libm. -/
def boundLibraries (dList : List CString) : List CString := dList ++ [libcName, libmName]

/-- All libraries with all records, in the order in which they are tried. -/
def bindPairs (c : MachContext) : List (Addr × BindInfo) :=
  (openLibraries H (boundLibraries c.dList)).flatMap fun library => c.bList.map (library, ·)

/-- One record for one library. -/
def bindPair (c : MachContext) (p : Addr × BindInfo) : Option MachContext := bindRecord H p.1 c p.2

theorem bindRecord_cases {library : Addr} {c c' : MachContext} {r : BindInfo}
    (h : bindRecord H library c r = some c') :
    c' = c ∨ c.imgAddr < r.address ∧ ∃ v, c' = storeBind c r.address v := by
  unfold bindRecord at h
  split_ifs at h with ha
  · exact .inl (Option.some.inj h).symm
  · have ha := BitVec.not_le.mp ha
    cases hn : r.funcName with
    | none => simp [hn] at h
    | some name =>
      simp only [hn] at h
      split_ifs at h
      · exact .inr ⟨ha, _, (Option.some.inj h).symm⟩
      · exact .inr ⟨ha, _, (Option.some.inj h).symm⟩
      · exact .inl (Option.some.inj h).symm
      · exact .inr ⟨ha, _, (Option.some.inj h).symm⟩

theorem foldlM_bindLibrary_eq_pairs (names : List CString) (c : MachContext) :
    names.foldlM (bindLibrary H) c =
      ((openLibraries H names).flatMap fun library => c.bList.map (library, ·)).foldlM (bindPair H) c := by
  induction names generalizing c with
  | nil => rfl
  | cons name names ih =>
    rw [List.foldlM_cons, bindLibrary]
    by_cases hopen : H.dlopen name = 0#64
    · have hlibs : openLibraries H (name :: names) = openLibraries H names := by
        simp [openLibraries, hopen]
      rw [if_pos hopen, hlibs]
      exact ih c
    · have hlibs : openLibraries H (name :: names) = H.dlopen name :: openLibraries H names := by
        simp [openLibraries, hopen]
      have hpairs : (c.bList.map (H.dlopen name, ·)).foldlM (bindPair H) c =
          c.bList.foldlM (bindRecord H (H.dlopen name)) c := List.foldlM_map
      rw [if_neg hopen, hlibs, List.flatMap_cons, List.foldlM_append, hpairs]
      cases hrun : c.bList.foldlM (bindRecord H (H.dlopen name)) c with
      | none => rfl
      | some c' =>
        have hlist : c'.bList = c.bList := by
          refine foldlM_option_keeps (P := fun d => d.bList = c.bList) ?_ rfl hrun
          intro d r _ d' hd hstep
          rcases bindRecord_cases H hstep with rfl | ⟨-, v, rfl⟩
          · exact hd
          · exact hd
        have hrest := ih c'
        rw [hlist] at hrest
        exact hrest

theorem doBind_eq_pairs (c : MachContext) : doBind H c =
    ((bindPairs H c).foldlM (bindPair H) { c with dList := boundLibraries c.dList }).map fun d =>
      (0, d) := by
  have hlists : dylibListRetriever (dylibListRetriever c libcName) libmName =
      { c with dList := boundLibraries c.dList } := by
    simp [dylibListRetriever, boundLibraries]
  rw [doBind, hlists, foldlM_bindLibrary_eq_pairs, Option.map_eq_bind]
  rfl

/-! ## Stores -/

/-- The stores with their values as numbers. -/
def storeValues (ws : List (Addr × Addr)) : List (Addr × ℕ) := ws.map fun s => (s.1, s.2.toNat)

/-- The context after the stores `(address, value)`, in order. -/
def MachContext.stored (c : MachContext) (ws : List (Addr × Addr)) : MachContext :=
  { c with
    mem := applyWrites 8 c.mem (storeValues ws)
    trace := c.trace ++ ws.map fun s => .store s.1 s.2 }

theorem stored_nil (c : MachContext) : c.stored [] = c := by
  simp [MachContext.stored, storeValues, applyWrites]

theorem stored_stored (c : MachContext) (ws ws' : List (Addr × Addr)) :
    (c.stored ws).stored ws' = c.stored (ws ++ ws') := by
  simp [MachContext.stored, storeValues, applyWrites_append]

/-- The value a library gives a name. -/
def bindValue (library : Addr) (name : CString) : Option Addr :=
  if name = lit "mmap" then some (H.addressOf .hostMmapForDarwin)
  else if name = lit "__stack_chk_guard" then some (H.addressOf .guard)
  else if H.dlsym library name = 0#64 then none else some (H.dlsym library name)

/-- The store a library makes for a record. -/
def recordWrite (library img : Addr) (r : BindInfo) : Option (Addr × Addr) :=
  if r.address ≤ img then none
  else r.funcName.bind fun n => (bindValue H library (dropUnderscore n)).map (r.address, ·)

/-- A record that passes the address filter has a name. -/
def BindInfo.Named (img : Addr) (r : BindInfo) : Prop := r.address ≤ img ∨ r.funcName ≠ none

theorem bindRecord_eq (library : Addr) {c : MachContext} {r : BindInfo} (h : r.Named c.imgAddr) :
    bindRecord H library c r = some (c.stored (recordWrite H library c.imgAddr r).toList) := by
  by_cases ha : r.address ≤ c.imgAddr
  · simp [bindRecord, recordWrite, ha, stored_nil]
  · cases hn : r.funcName with
    | none => exact absurd hn (h.resolve_left ha)
    | some n =>
      simp only [bindRecord, recordWrite, ha, hn, bindValue, if_false, Option.bind_some]
      split_ifs
      · rfl
      · rfl
      · simp [stored_nil]
      · rfl

theorem foldlM_bindPair {ps : List (Addr × BindInfo)} (c : MachContext)
    (h : ∀ p ∈ ps, p.2.Named c.imgAddr) :
    ps.foldlM (bindPair H) c =
      some (c.stored (ps.filterMap fun p => recordWrite H p.1 c.imgAddr p.2)) := by
  induction ps generalizing c with
  | nil => rw [List.filterMap_nil, stored_nil]; rfl
  | cons p ps ih =>
    have hrest := ih (c.stored (recordWrite H p.1 c.imgAddr p.2).toList)
      fun p' hp' => h p' (List.mem_cons_of_mem _ hp')
    have himg : (c.stored (recordWrite H p.1 c.imgAddr p.2).toList).imgAddr = c.imgAddr := rfl
    rw [himg, stored_stored] at hrest
    rw [List.foldlM_cons, bindPair, bindRecord_eq H p.1 (h p List.mem_cons_self),
      Option.bind_eq_bind, Option.bind_some, hrest, List.filterMap_cons]
    cases recordWrite H p.1 c.imgAddr p.2 <;> rfl

/-- The stores for the records `rs`, library by library. -/
def bindWrites (img : Addr) (rs : List BindInfo) (libraries : List Addr) : List (Addr × Addr) :=
  libraries.flatMap fun library => rs.filterMap (recordWrite H library img)

/-- The context after binding. -/
def MachContext.bound (c : MachContext) (H : Host) : MachContext :=
  { c with dList := boundLibraries c.dList }.stored
    (bindWrites H c.imgAddr c.bList (openLibraries H (boundLibraries c.dList)))

theorem mem_bound (c : MachContext) : (c.bound H).mem = applyWrites 8 c.mem (storeValues
    (bindWrites H c.imgAddr c.bList (openLibraries H (boundLibraries c.dList)))) := rfl

/-- **Binding is the list of its stores.** -/
theorem doBind_eq (c : MachContext) (h : ∀ r ∈ c.bList, r.Named c.imgAddr) :
    doBind H c = some (0, c.bound H) := by
  have hnamed : ∀ p ∈ bindPairs H c, p.2.Named c.imgAddr := by
    intro p hp
    obtain ⟨library, -, hmem⟩ := List.mem_flatMap.mp hp
    obtain ⟨r, hr, rfl⟩ := List.mem_map.mp hmem
    exact h r hr
  have hwrites : (bindPairs H c).filterMap (fun p => recordWrite H p.1 c.imgAddr p.2) =
      bindWrites H c.imgAddr c.bList (openLibraries H (boundLibraries c.dList)) := by
    rw [bindPairs, List.filterMap_flatMap, bindWrites]
    refine List.flatMap_congr fun library _ => ?_
    rw [List.filterMap_map]
    rfl
  rw [doBind_eq_pairs, foldlM_bindPair H { c with dList := boundLibraries c.dList } hnamed, hwrites]
  rfl

/-! ## Records without a name -/

/-- Some library opens, and a record above the image has no name to look up in it. -/
def NamelessBind (c : MachContext) : Prop :=
  openLibraries H (boundLibraries c.dList) ≠ [] ∧
    ∃ r ∈ c.bList, c.imgAddr < r.address ∧ r.funcName = none

theorem not_named_iff {img : Addr} {r : BindInfo} :
    ¬ r.Named img ↔ img < r.address ∧ r.funcName = none := by
  rw [BindInfo.Named, not_or, not_not, BitVec.not_le]

theorem bindRecord_eq_none_iff (library : Addr) {c : MachContext} {r : BindInfo} :
    bindRecord H library c r = none ↔ ¬ r.Named c.imgAddr := by
  constructor
  · intro hnone hnamed
    rw [bindRecord_eq H library hnamed] at hnone
    cases hnone
  · intro h
    obtain ⟨ha, hn⟩ := not_named_iff.mp h
    rw [bindRecord, if_neg (BitVec.not_le.mpr ha), hn]

/-- **A name at `NULL` is read** exactly if a library opens and a record above the image has no name. -/
theorem doBind_eq_none_iff (c : MachContext) : doBind H c = none ↔ NamelessBind H c := by
  have hfails : (bindPairs H c).foldlM (bindPair H) { c with dList := boundLibraries c.dList } = none ↔
      ∃ p ∈ bindPairs H c, ¬ p.2.Named c.imgAddr :=
    foldlM_eq_none_iff (P := fun d => d.imgAddr = c.imgAddr) ?_ ?_ rfl
  · rw [doBind_eq_pairs, Option.map_eq_none_iff, hfails]
    simp only [bindPairs, List.mem_flatMap, List.mem_map, not_named_iff]
    constructor
    · rintro ⟨-, ⟨library, hlib, r, hr, rfl⟩, ha, hn⟩
      exact ⟨List.ne_nil_of_mem hlib, r, hr, ha, hn⟩
    · rintro ⟨hopen, r, hr, ha, hn⟩
      obtain ⟨library, hlib⟩ := List.exists_mem_of_ne_nil _ hopen
      exact ⟨(library, r), ⟨library, hlib, r, hr, rfl⟩, ha, hn⟩
  · intro d p himg
    rw [← himg]
    exact bindRecord_eq_none_iff H p.1
  · intro d p d' himg hstep
    rcases bindRecord_cases H hstep with rfl | ⟨-, v, rfl⟩
    · exact himg
    · exact himg

variable {H} in
theorem doBind_eq_bound {c : MachContext} (h : ¬ NamelessBind H c) :
    doBind H c = some (0, c.bound H) := by
  by_cases hopen : openLibraries H (boundLibraries c.dList) = []
  · have hpairs : bindPairs H c = [] := by rw [bindPairs, hopen, List.flatMap_nil]
    have hwrites : bindWrites H c.imgAddr c.bList (openLibraries H (boundLibraries c.dList)) = [] := by
      rw [bindWrites, hopen, List.flatMap_nil]
    rw [doBind_eq_pairs, hpairs, MachContext.bound, hwrites, stored_nil]
    rfl
  · refine doBind_eq H c fun r hr => ?_
    by_contra hn
    exact h ⟨hopen, r, hr, not_named_iff.mp hn⟩

/-! ## What a slot holds afterwards -/

/-- The value the last of the libraries that has one gives a name. -/
def hostValue (libraries : List Addr) (name : CString) : Option Addr :=
  (libraries.filterMap fun library => bindValue H library name).getLast?

theorem hostValue_cons (library : Addr) (libraries : List Addr) (name : CString) :
    hostValue H (library :: libraries) name =
      (hostValue H libraries name).or (bindValue H library name) := by
  rw [hostValue, hostValue, List.filterMap_cons]
  cases bindValue H library name with
  | none => simp
  | some v =>
    dsimp only
    rw [List.getLast?_cons]
    cases (List.getLast? _ : Option Addr) <;> rfl

/-- The value binding chooses for a name: the wrapper, the guard, or what the last of the libraries
that exports the name has. -/
def chosenValue (libraries : List Addr) (name : CString) : Option Addr :=
  if name = lit "mmap" then some (H.addressOf .hostMmapForDarwin)
  else if name = lit "__stack_chk_guard" then some (H.addressOf .guard)
  else ((libraries.map fun library => H.dlsym library name).filter (· ≠ 0#64)).getLast?

theorem filterMap_dlsym (libraries : List Addr) (name : CString) :
    (libraries.filterMap fun library => if H.dlsym library name = 0#64 then none
        else some (H.dlsym library name)) =
      (libraries.map fun library => H.dlsym library name).filter (· ≠ 0#64) := by
  induction libraries with
  | nil => rfl
  | cons library libraries ih =>
    by_cases h : H.dlsym library name = 0#64
    · simp [h, ih]
    · simp [h, ih]

/-- **The chosen value is stored** as soon as a library opens. -/
theorem hostValue_eq_chosenValue {libraries : List Addr} (hopen : libraries ≠ []) (name : CString) :
    hostValue H libraries name = chosenValue H libraries name := by
  have hconst : ∀ v : Addr, (libraries.filterMap fun _ => some v).getLast? = some v := by
    intro v
    rw [List.filterMap_eq_map', List.getLast?_map, List.getLast?_eq_getLast_of_ne_nil hopen,
      Option.map_some]
  unfold hostValue chosenValue bindValue
  split_ifs
  · exact hconst _
  · exact hconst _
  · rw [filterMap_dlsym]

theorem address_of_recordWrite {library img : Addr} {r : BindInfo} {s : Addr × Addr}
    (h : recordWrite H library img r = some s) : s.1 = r.address ∧ img < r.address := by
  rw [recordWrite] at h
  split_ifs at h with ha
  obtain ⟨n, -, hn⟩ := Option.bind_eq_some_iff.mp h
  obtain ⟨v, -, rfl⟩ := Option.map_eq_some_iff.mp hn
  exact ⟨rfl, BitVec.not_le.mp ha⟩

theorem address_of_mem_bindWrites {img : Addr} {rs : List BindInfo} {libraries : List Addr}
    {s : Addr × ℕ} (hs : s ∈ storeValues (bindWrites H img rs libraries)) :
    ∃ r ∈ rs, s.1 = r.address ∧ img < r.address := by
  obtain ⟨w, hw, rfl⟩ := List.mem_map.mp hs
  obtain ⟨library, -, hw⟩ := List.mem_flatMap.mp hw
  obtain ⟨r, hr, hrw⟩ := List.mem_filterMap.mp hw
  exact ⟨r, hr, address_of_recordWrite H hrw⟩

theorem lastWrite_recordWrites_eq_none (library img : Addr) {rs : List BindInfo} {a : Addr}
    (h : ∀ r ∈ rs, r.address ≠ a) :
    lastWrite (storeValues (rs.filterMap (recordWrite H library img))) a = none := by
  apply lastWrite_eq_none
  intro s hs he
  obtain ⟨w, hw, rfl⟩ := List.mem_map.mp hs
  obtain ⟨r, hr, hrw⟩ := List.mem_filterMap.mp hw
  exact h r hr ((address_of_recordWrite H hrw).1.symm.trans he)

variable {rs : List BindInfo} {img : Addr} {r : BindInfo} {n : CString}

theorem lastWrite_recordWrites (library : Addr)
    (hne : rs.Pairwise fun r r' => r.address ≠ r'.address) (hr : r ∈ rs)
    (hn : r.funcName = some n) (ha : img < r.address) :
    lastWrite (storeValues (rs.filterMap (recordWrite H library img))) r.address =
      (bindValue H library (dropUnderscore n)).map BitVec.toNat := by
  obtain ⟨l₁, l₂, rfl⟩ := List.append_of_mem hr
  obtain ⟨-, hcons, hcross⟩ := List.pairwise_append.mp hne
  have h₁ := lastWrite_recordWrites_eq_none H library img
    fun r' hr' => hcross r' hr' r List.mem_cons_self
  have h₂ := lastWrite_recordWrites_eq_none H library img
    fun r' hr' => ((List.pairwise_cons.mp hcons).1 r' hr').symm
  have hself : recordWrite H library img r =
      (bindValue H library (dropUnderscore n)).map (r.address, ·) := by
    rw [recordWrite, if_neg (BitVec.not_le.mpr ha), hn, Option.bind_some]
  rw [storeValues] at h₁ h₂
  rw [storeValues, List.filterMap_append, List.map_append, lastWrite_append, h₁, Option.or_none,
    List.filterMap_cons, hself]
  cases bindValue H library (dropUnderscore n) with
  | none => exact h₂
  | some v =>
    rw [Option.map_some, List.map_cons, lastWrite_cons, h₂, if_pos rfl]
    rfl

theorem lastWrite_bindWrites (hne : rs.Pairwise fun r r' => r.address ≠ r'.address) (hr : r ∈ rs)
    (hn : r.funcName = some n) (ha : img < r.address) (libraries : List Addr) :
    lastWrite (storeValues (bindWrites H img rs libraries)) r.address =
      (hostValue H libraries (dropUnderscore n)).map BitVec.toNat := by
  induction libraries with
  | nil => rfl
  | cons library libraries ih =>
    have happend : storeValues (bindWrites H img rs (library :: libraries)) =
        storeValues (rs.filterMap (recordWrite H library img)) ++
          storeValues (bindWrites H img rs libraries) := List.map_append
    rw [happend, lastWrite_append, ih, hostValue_cons, Option.map_or,
      lastWrite_recordWrites H library hne hr hn ha]

instance : Std.Symm fun r r' : BindInfo => SlotsApart 8 r.address r'.address :=
  ⟨fun _ _ h => h.symm⟩

/-- **A slot of its own after binding** holds the host's value, or its old content. -/
theorem load64_applyWrites_bindWrites (hne : rs.Pairwise fun r r' => SlotsApart 8 r.address r'.address)
    (hr : r ∈ rs) (hn : r.funcName = some n) (ha : img < r.address) (libraries : List Addr)
    (m : Mem 64) :
    load64 (applyWrites 8 m (storeValues (bindWrites H img rs libraries))) r.address =
      (hostValue H libraries (dropUnderscore n)).getD (load64 m r.address) := by
  have hapart : ∀ s ∈ storeValues (bindWrites H img rs libraries),
      s.1 = r.address ∨ SlotsApart 8 s.1 r.address := by
    intro s hs
    obtain ⟨r', hr', hs', -⟩ := address_of_mem_bindWrites H hs
    rw [hs']
    rcases eq_or_ne r' r with rfl | hne'
    · exact Or.inl rfl
    · exact Or.inr (hne.forall hr' hr hne')
  rw [load64, loadLE_applyWrites (by norm_num) m hapart,
    lastWrite_bindWrites H (hne.imp fun h => h.ne (by norm_num)) hr hn ha]
  cases hostValue H libraries (dropUnderscore n) with
  | none => rfl
  | some v => exact ofNat_toNat_mod v

theorem applyWrites_bindWrites_of_not_inRange {x : Addr}
    (hx : ∀ r ∈ rs, img < r.address → ¬ InRange r.address 8 x) (libraries : List Addr) (m : Mem 64) :
    applyWrites 8 m (storeValues (bindWrites H img rs libraries)) x = m x := by
  apply applyWrites_of_not_inRange
  intro s hs
  obtain ⟨r, hr, hsr, ha⟩ := address_of_mem_bindWrites H hs
  rw [hsr]
  exact hx r hr ha

end Maloader
