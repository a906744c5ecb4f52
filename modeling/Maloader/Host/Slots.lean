import Maloader.Host.Resolve

/-!
# What `do_bind` leaves behind

The memory after the loops of `do_bind`, and what its result says about them.

* `MachContext.aboveImage`, `bindWrites_filter`: the records that are not skipped make all the stores.
* **`doBind_leaves`**: the slots, the rest of the memory and the lists after a call.
* `Written`, `Missing`, `Bindable`, `storesTo_doBind_iff`: the slots that the log of a call has.
* **`doBind_reports_iff`**: exactly when the result tells whether every record was written.
-/

namespace Maloader

open ByteLib

variable (H : Host)

/-! ## The slots -/

/-- The records that pass the address filter. -/
def MachContext.aboveImage (c : MachContext) : List BindInfo :=
  c.bList.filter fun r => c.imgAddr < r.address

theorem mem_aboveImage {c : MachContext} {r : BindInfo} :
    r ∈ c.aboveImage ↔ r ∈ c.bList ∧ c.imgAddr < r.address := by
  rw [MachContext.aboveImage, List.mem_filter, decide_eq_true_iff]

theorem bindWrites_filter (img : Addr) (rs : List BindInfo) (libraries : List Addr) :
    bindWrites H img (rs.filter fun r => img < r.address) libraries = bindWrites H img rs libraries := by
  refine List.flatMap_congr fun library _ => ?_
  rw [List.filterMap_filter]
  refine List.filterMap_congr fun r _ => ?_
  by_cases ha : img < r.address
  · rw [decide_eq_true ha, if_pos rfl]
  · rw [decide_eq_false ha, recordWrite, if_pos (BitVec.not_lt.mp ha)]
    rfl

/-- **What `do_bind` leaves behind**, where the records above `img_addr` have names and slots of their
own and some library opens. Each of these slots holds the value chosen for its name, or what it held;
no other byte changes; the bind list is as before, the library list longer by the two defaults. -/
theorem doBind_leaves (H : Host) (c : MachContext)
    (hopen : openLibraries H (boundLibraries c.dList) ≠ [])
    (hnamed : ∀ r ∈ c.bList, c.imgAddr < r.address → r.funcName ≠ none)
    (hapart : c.aboveImage.Pairwise fun r r' => SlotsApart 8 r.address r'.address) :
    ∃ c', doBind H c = some (0, c') ∧
      (∀ r ∈ c.bList, ∀ n, r.funcName = some n → c.imgAddr < r.address →
        load64 c'.mem r.address =
          (chosenValue H (openLibraries H (boundLibraries c.dList)) (dropUnderscore n)).getD
            (load64 c.mem r.address)) ∧
      (∀ x, (∀ r ∈ c.bList, c.imgAddr < r.address → ¬ InRange r.address 8 x) → c'.mem x = c.mem x) ∧
      (∀ r ∈ c.bList, r.address ≤ c.imgAddr →
        (∀ r' ∈ c.bList, c.imgAddr < r'.address → SlotsApart 8 r.address r'.address) →
          load64 c'.mem r.address = load64 c.mem r.address) ∧
      c'.bList = c.bList ∧ c'.dList = c.dList ++ [libcName, libmName] := by
  have hnamed' : ∀ r ∈ c.bList, r.Named c.imgAddr := by
    intro r hr
    by_cases ha : r.address ≤ c.imgAddr
    · exact Or.inl ha
    · exact Or.inr (hnamed r hr (BitVec.not_le.mp ha))
  have hframe : ∀ x, (∀ r ∈ c.bList, c.imgAddr < r.address → ¬ InRange r.address 8 x) →
      (c.bound H).mem x = c.mem x := by
    intro x hx
    rw [mem_bound]
    exact applyWrites_bindWrites_of_not_inRange H hx _ _
  refine ⟨c.bound H, doBind_eq H c hnamed', ?_, hframe, ?_, rfl, rfl⟩
  · intro r hr n hn ha
    rw [mem_bound, ← bindWrites_filter, ← hostValue_eq_chosenValue H hopen]
    exact load64_applyWrites_bindWrites H hapart (mem_aboveImage.mpr ⟨hr, ha⟩) hn ha _ _
  · intro r hr _ hclear
    rw [load64, load64, loadLE_congr fun i hi => hframe _ fun r' hr' ha' =>
      hclear r' hr' ha' _ (inRange_add r.address hi (by norm_num))]

/-- Two slots above the image and one at its base. -/
def threeRecords : MachContext :=
  { MachContext.zero fun _ => 0#8 with
    imgAddr := 0x1000#64
    bList := [⟨none, 0x1000#64⟩, ⟨some (lit "_sin"), 0x2000#64⟩, ⟨some (lit "_cos"), 0x2008#64⟩] }

theorem doBind_leaves_threeRecords : ∃ c', doBind smallHost threeRecords = some (0, c') ∧
    load64 c'.mem 0x2000#64 = 3#64 ∧ load64 c'.mem 0x2008#64 = 0#64 ∧ c'.bList = threeRecords.bList := by
  have hslots : SlotsApart 8 (0x1000#64 + BitVec.ofNat 64 0x1000) (0x1000#64 + BitVec.ofNat 64 0x1008) :=
    slotsApart_offset _ (by norm_num) (by norm_num) (by norm_num) (by norm_num)
  have hapart : threeRecords.aboveImage.Pairwise fun r r' => SlotsApart 8 r.address r'.address :=
    List.pairwise_pair.mpr hslots
  obtain ⟨c', hdo, hslot, -, -, hlist, -⟩ :=
    doBind_leaves smallHost threeRecords (by decide) (by decide) hapart
  have hsin := hslot ⟨some (lit "_sin"), 0x2000#64⟩ (by decide) _ rfl (by decide)
  have hcos := hslot ⟨some (lit "_cos"), 0x2008#64⟩ (by decide) _ rfl (by decide)
  exact ⟨c', hdo, hsin.trans (by decide), hcos.trans (by decide), hlist⟩

/-- A record at the image's base and one four bytes behind it. -/
def overlappingRecords : MachContext :=
  { MachContext.zero fun _ => 0#8 with
    imgAddr := 0x1000#64
    bList := [⟨some (lit "_cos"), 0x1000#64⟩, ⟨some (lit "_sin"), 0x1004#64⟩] }

/-- The first record is skipped, but its slot shares four bytes with the second one's. -/
theorem doBind_changes_skipped_slot :
    openLibraries smallHost (boundLibraries overlappingRecords.dList) ≠ [] ∧
      (∀ r ∈ overlappingRecords.bList, r.funcName ≠ none) ∧
      (overlappingRecords.aboveImage.Pairwise fun r r' => SlotsApart 8 r.address r'.address) ∧
      ¬ ∃ c', doBind smallHost overlappingRecords = some (0, c') ∧
        ∀ r ∈ overlappingRecords.bList, r.address ≤ overlappingRecords.imgAddr →
          load64 c'.mem r.address = load64 overlappingRecords.mem r.address := by
  refine ⟨by decide, by decide, List.pairwise_singleton _ _, ?_⟩
  rintro ⟨c', hdo, hskipped⟩
  have hslot := hskipped ⟨some (lit "_cos"), 0x1000#64⟩ (by decide) (by decide)
  have hval : (doBind smallHost overlappingRecords).map (fun r => load64 r.2.mem 0x1000#64) =
      some 0x300000000#64 := by decide +kernel
  rw [hdo, Option.map_some, hslot] at hval
  revert hval
  decide

/-! ## The result -/

variable {H}

/-- The call from `c` to `c'` stored to the slot of the record, by the log of the call. -/
def BindInfo.Written (c c' : MachContext) (r : BindInfo) : Prop := StoresTo c c' r.address

/-- No library that opens has a value for the record's name. -/
def BindInfo.Missing (H : Host) (c : MachContext) (r : BindInfo) : Prop :=
  ∀ n ∈ r.funcName, ∀ library ∈ openLibraries H (boundLibraries c.dList),
    bindValue H library (dropUnderscore n) = none

/-- The record is above `img_addr`, has a name, and a library that opens has a value for the name: any
for the two special ones, one that exports it for the others. -/
def BindInfo.Bindable (H : Host) (c : MachContext) (r : BindInfo) : Prop :=
  c.imgAddr < r.address ∧ ∃ n ∈ r.funcName, ∃ library ∈ openLibraries H (boundLibraries c.dList),
    dropUnderscore n = lit "mmap" ∨ dropUnderscore n = lit "__stack_chk_guard" ∨
      H.dlsym library (dropUnderscore n) ≠ 0#64

theorem bindValue_ne_none_iff {library : Addr} {name : CString} :
    bindValue H library name ≠ none ↔
      name = lit "mmap" ∨ name = lit "__stack_chk_guard" ∨ H.dlsym library name ≠ 0#64 := by
  unfold bindValue
  split_ifs with hmmap hguard hsym
  · simp [hmmap]
  · simp [hguard]
  · simp [hmmap, hguard, hsym]
  · simp [hsym]

theorem bindable_iff {c : MachContext} {r : BindInfo} :
    r.Bindable H c ↔ ¬ (r.address ≤ c.imgAddr ∨ r.Missing H c) := by
  simp only [BindInfo.Bindable, BindInfo.Missing, ← bindValue_ne_none_iff, not_or, BitVec.not_le,
    not_forall, exists_prop]

theorem recordWrite_eq_some_iff {library img : Addr} {r : BindInfo} {s : Addr × Addr} :
    recordWrite H library img r = some s ↔ img < r.address ∧
      ∃ n ∈ r.funcName, ∃ v, bindValue H library (dropUnderscore n) = some v ∧ (r.address, v) = s := by
  rw [recordWrite]
  split_ifs with ha
  · simp [ha]
  · simp [BitVec.not_le.mp ha, Option.bind_eq_some_iff]

theorem mem_bindWrites_iff {img : Addr} {rs : List BindInfo} {libraries : List Addr}
    {s : Addr × Addr} : s ∈ bindWrites H img rs libraries ↔
      ∃ library ∈ libraries, ∃ r ∈ rs, recordWrite H library img r = some s := by
  simp only [bindWrites, List.mem_flatMap, List.mem_filterMap]

/-- **The log of a call** has a store to a slot exactly if the slot is that of a bindable record. -/
theorem storesTo_doBind_iff {c c' : MachContext} {result : ℤ} (h : doBind H c = some (result, c'))
    (a : Addr) : StoresTo c c' a ↔ ∃ r ∈ c.bList, r.address = a ∧ r.Bindable H c := by
  have hnamed : ¬ NamelessBind H c := fun hn => by
    rw [(doBind_eq_none_iff H c).mpr hn] at h
    cases h
  rw [doBind_eq_bound hnamed] at h
  obtain ⟨-, rfl⟩ := Prod.mk.inj (Option.some.inj h)
  have hlog : (c.bound H).trace.drop c.trace.length =
      (bindWrites H c.imgAddr c.bList (openLibraries H (boundLibraries c.dList))).map
        fun s => .store s.1 s.2 := List.drop_left
  simp only [StoresTo, hlog, List.mem_map, mem_bindWrites_iff, recordWrite_eq_some_iff]
  constructor
  · rintro ⟨v, s, ⟨library, hlib, r, hr, ha, n, hn, v', hval, rfl⟩, hs⟩
    obtain ⟨rfl, -⟩ := Event.store.inj hs
    exact ⟨r, hr, rfl, ha, n, hn, library, hlib, bindValue_ne_none_iff.mp (by simp [hval])⟩
  · rintro ⟨r, hr, rfl, ha, n, hn, library, hlib, hval⟩
    obtain ⟨v, hv⟩ := Option.ne_none_iff_exists'.mp (bindValue_ne_none_iff.mpr hval)
    exact ⟨v, _, ⟨library, hlib, r, hr, ha, n, hn, v, hv, rfl⟩, rfl⟩

/-- The result of `do_bind` is `0` only where the call has stored to the slot of every record, and where
a record is skipped or missing, a result that is not `0` comes back. -/
structure ReportsFailure (H : Host) (c : MachContext) : Prop where
  success : ∀ c', doBind H c = some (0, c') → ∀ r ∈ c.bList, r.Written c c'
  failure : (∃ r ∈ c.bList, r.address ≤ c.imgAddr ∨ r.Missing H c) →
    ∃ result c', doBind H c = some (result, c') ∧ result ≠ 0

/-- `do_bind` returns `0` if it returns. -/
theorem result_doBind {c c' : MachContext} {result : ℤ} (h : doBind H c = some (result, c')) :
    result = 0 := by
  rw [doBind_eq_pairs] at h
  obtain ⟨d, -, hd⟩ := Option.map_eq_some_iff.mp h
  exact (Prod.mk.inj hd).1.symm

/-- **The result tells whether every record was written** exactly where every record can be. -/
theorem doBind_reports_iff (H : Host) (c : MachContext) :
    ReportsFailure H c ↔ ∀ r ∈ c.bList, r.Bindable H c := by
  constructor
  · intro h r hr
    by_contra hnot
    rw [bindable_iff, not_not] at hnot
    obtain ⟨result, c', hdo, hne⟩ := h.failure ⟨r, hr, hnot⟩
    exact hne (result_doBind hdo)
  · intro h
    constructor
    · intro c' hdo r hr
      exact (storesTo_doBind_iff hdo r.address).mpr ⟨r, hr, rfl, h r hr⟩
    · rintro ⟨r, hr, hnot⟩
      exact absurd hnot (bindable_iff.mp (h r hr))

/-- A symbol that no library exports: `do_bind` stores nothing and returns `0` all the same. -/
theorem doBind_hides_missing :
    (∃ c', doBind smallHost (recordContext (lit "_cos")) = some (0, c') ∧
      ¬ StoresTo (recordContext (lit "_cos")) c' 0x2000#64) ∧
      ¬ ReportsFailure smallHost (recordContext (lit "_cos")) := by
  have hmissing : BindInfo.Missing smallHost (recordContext (lit "_cos"))
      ⟨some (lit "_cos"), 0x2000#64⟩ := by
    have hlibs : openLibraries smallHost (boundLibraries []) = [0x10#64, 0x20#64] := by decide
    have hlibc : bindValue smallHost 0x10#64 (dropUnderscore (lit "_cos")) = none := by decide
    have hlibm : bindValue smallHost 0x20#64 (dropUnderscore (lit "_cos")) = none := by decide
    intro n hn library hlib
    obtain rfl := Option.some.inj hn
    have hmem : library ∈ [0x10#64, 0x20#64] := hlibs ▸ hlib
    rcases List.mem_pair.mp hmem with rfl | rfl
    · exact hlibc
    · exact hlibm
  have hdo := doBind_eq smallHost (recordContext (lit "_cos")) (by simp [recordContext, BindInfo.Named])
  refine ⟨⟨_, hdo, fun hstores => ?_⟩, fun h => ?_⟩
  · obtain ⟨r, hr, -, hbindable⟩ := (storesTo_doBind_iff hdo 0x2000#64).mp hstores
    obtain rfl := List.mem_singleton.mp hr
    exact bindable_iff.mp hbindable (.inr hmissing)
  · obtain ⟨result, c', hdo', hne⟩ := h.failure ⟨_, List.mem_singleton_self _, .inr hmissing⟩
    exact hne (result_doBind hdo')

end Maloader
