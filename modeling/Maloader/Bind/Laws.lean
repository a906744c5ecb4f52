import Maloader.Bind.Program

/-!
# Laws of bind programs

Programs compose at opcode boundaries, so an opcode may be replaced by a program with the same rows
and the same effect on the columns.

* `programRows_append`, `programRegs_append`: composition.
* `Expands`, `Expands.rows_eq`: the compressed bind opcodes and what they stand for;
  **`bindListRetriever_expand`**.
* `SetsBeforeBind`, `programRows_congr`: a program that sets its columns before it binds does not
  depend on the columns it starts from.
* `InsertsDone`, `InsertsDone.rows_eq`: `DONE` is neutral; **`bindListRetriever_lazy`**.
-/

namespace Maloader

open ByteLib

/-! ## Composition -/

@[simp] theorem programRows_nil (r : BindRegs) : programRows r [] = [] := rfl

@[simp] theorem programRows_cons (r : BindRegs) (o : BindOp) (os : List BindOp) :
    programRows r (o :: os) = o.rows r ++ programRows (o.regs r) os := rfl

@[simp] theorem programRegs_nil (r : BindRegs) : programRegs r [] = r := rfl

@[simp] theorem programRegs_cons (r : BindRegs) (o : BindOp) (os : List BindOp) :
    programRegs r (o :: os) = programRegs (o.regs r) os := rfl

theorem programRegs_append (r : BindRegs) (as bs : List BindOp) :
    programRegs r (as ++ bs) = programRegs (programRegs r as) bs := List.foldl_append

theorem programRows_append (r : BindRegs) (as bs : List BindOp) :
    programRows r (as ++ bs) = programRows r as ++ programRows (programRegs r as) bs := by
  induction as generalizing r with
  | nil => rfl
  | cons a as ih => simp [ih]

/-! ## Compressed opcodes -/

/-- A program that an opcode stands for, in any encodings of the operands. -/
inductive Expands : BindOp → List BindOp → Prop
  | keep (o : BindOp) : Expands o [o]
  | addAddrUleb (imm imm₁ imm₂ : BitVec 4) {n n' : Uleb} (hn : n'.val = n.val) :
    Expands (.doBindAddAddrUleb imm n) [.doBind imm₁, .addAddrUleb imm₂ n']
  | addAddrImmScaled (imm imm₁ imm₂ : BitVec 4) {n' : Uleb} (hn : n'.val.toNat = 8 * imm.toNat) :
    Expands (.doBindAddAddrImmScaled imm) [.doBind imm₁, .addAddrUleb imm₂ n']
  | ulebTimesSkippingUleb (imm : BitVec 4) {count skip : Uleb}
    {copies : List (BitVec 4 × BitVec 4 × Uleb)} (hlength : copies.length = count.val.toNat)
    (hskip : ∀ copy ∈ copies, copy.2.2.val = skip.val) :
    Expands (.doBindUlebTimesSkippingUleb imm count skip)
      (copies.flatMap fun copy => [.doBind copy.1, .addAddrUleb copy.2.1 copy.2.2])

theorem copies_eq {skip : BitVec 64} {copies : List (BitVec 4 × BitVec 4 × Uleb)}
    (hskip : ∀ copy ∈ copies, copy.2.2.val = skip) (r : BindRegs) :
    let prog := copies.flatMap fun copy => [BindOp.doBind copy.1, .addAddrUleb copy.2.1 copy.2.2]
    programRows r prog = (List.range copies.length).map (fun i =>
        { r with offset := r.offset + BitVec.ofNat 64 i * (8#64 + skip) }) ∧
      programRegs r prog =
        { r with offset := r.offset + BitVec.ofNat 64 copies.length * (8#64 + skip) } := by
  induction copies generalizing r with
  | nil => simp
  | cons copy copies ih =>
    obtain ⟨hrows, hregs⟩ := ih (fun c hc => hskip c (List.mem_cons_of_mem _ hc))
      { r with offset := r.offset + 8#64 + skip }
    have hoff : ∀ k : ℕ, r.offset + 8#64 + skip + BitVec.ofNat 64 k * (8#64 + skip) =
        r.offset + BitVec.ofNat 64 (k + 1) * (8#64 + skip) := by
      intro k
      rw [show BitVec.ofNat 64 (k + 1) = BitVec.ofNat 64 k + 1 from BitVec.ofNat_add k 1]
      ring
    have hhead := hskip copy List.mem_cons_self
    simp only [hoff] at hrows hregs
    constructor
    · rw [List.length_cons, List.range_succ_eq_map, List.map_cons, List.map_map]
      simp [BindOp.rows, BindOp.regs, hhead, hrows, Function.comp_def]
    · simp [BindOp.regs, hhead, hregs]

/-- **A compressed opcode is its expansion**: the same rows and the same columns afterwards. -/
theorem Expands.rows_eq {o : BindOp} {os : List BindOp} (h : Expands o os) (r : BindRegs) :
    programRows r os = o.rows r ∧ programRegs r os = o.regs r := by
  cases h with
  | keep => simp
  | addAddrUleb imm imm₁ imm₂ hn => simp [BindOp.rows, BindOp.regs, hn, BitVec.add_assoc]
  | addAddrImmScaled imm imm₁ imm₂ hn =>
    rename_i n'
    have hval : n'.val = imm.zeroExtend 64 * 8#64 := by
      apply BitVec.eq_of_toNat_eq
      have := imm.isLt
      rw [hn, BitVec.toNat_mul, BitVec.toNat_setWidth]
      norm_num
      omega
    simp [BindOp.rows, BindOp.regs, hval, BitVec.add_assoc]
  | ulebTimesSkippingUleb imm hlength hskip =>
    obtain ⟨hrows, hregs⟩ := copies_eq hskip r
    rw [hlength] at hrows hregs
    rw [BitVec.ofNat_toNat, BitVec.setWidth_eq] at hregs
    exact ⟨hrows, hregs⟩

theorem programRows_flatten {prog : List BindOp} {parts : List (List BindOp)}
    (h : List.Forall₂ Expands prog parts) (r : BindRegs) :
    programRows r parts.flatten = programRows r prog ∧
      programRegs r parts.flatten = programRegs r prog := by
  induction h generalizing r with
  | nil => exact ⟨rfl, rfl⟩
  | cons ho _ ih =>
    obtain ⟨hrows, hregs⟩ := ho.rows_eq r
    obtain ⟨ihrows, ihregs⟩ := ih (programRegs r _)
    rw [List.flatten_cons, programRows_append, programRegs_append, ihrows, ihregs, hrows, hregs]
    exact ⟨rfl, rfl⟩

/-- **Compressed bind opcodes mean their expansion**: with any of its opcodes expanded a program
decodes to the same bind list and leaves the parser with the same registers. -/
theorem bindListRetriever_expand (E : Env) (f f' : File) (c : MachContext) {prog : List BindOp}
    {parts : List (List BindOp)} (h : List.Forall₂ Expands prog parts) {start start' : ℕ}
    (hat : HasAt f start (encodeProgram prog)) (hat' : HasAt f' start' (encodeProgram parts.flatten)) :
    let stop := start + (encodeProgram prog).length
    let stop' := start' + (encodeProgram parts.flatten).length
    let s := bindFinal E f c.segments c.bList start stop
    let s' := bindFinal E f' c.segments c.bList start' stop'
    bindListRetriever E f' c start' stop' = bindListRetriever E f c start stop ∧
      s'.segmentOffset = s.segmentOffset ∧ s'.segmentIndex = s.segmentIndex ∧
        s'.symbolName = s.symbolName := by
  intro stop stop' s s'
  obtain ⟨hrows, hregs⟩ := programRows_flatten h BindRegs.init
  have hs : s = _ := bindFinal_encodeProgram c.segments E c.bList hat
  have hs' : s' = _ := bindFinal_encodeProgram c.segments E c.bList hat'
  rw [hregs, programRecords, hrows] at hs'
  refine ⟨?_, ?_, ?_, ?_⟩
  · have hlist : s'.bList = s.bList := by
      rw [hs, hs']
      rfl
    rw [bindListRetriever, bindListRetriever, show (bindFinal E f' _ _ _ _).bList = _ from hlist]
  · rw [hs, hs']
    rfl
  · rw [hs, hs']
    rfl
  · rw [hs, hs']
    rfl

/-- A segment mapped at `0x5000`. -/
def oneSegmentContext : MachContext :=
  { MachContext.zero fun _ => 0#8 with
    segments := ⟨[⟨[], 0x1000#64, 0x1000#64, 0x5000#64⟩], by decide⟩ }

/-- Two pointers four bytes apart, in one opcode and in four. -/
theorem bindListRetriever_expand_times :
    let prog := [BindOp.setSegmentAndOffsetUleb 0 ⟨[0x08], by decide, by decide, by decide⟩,
      .doBindUlebTimesSkippingUleb 0 ⟨[0x02], by decide, by decide, by decide⟩
        ⟨[0x04], by decide, by decide, by decide⟩]
    let parts := [[BindOp.setSegmentAndOffsetUleb 0 ⟨[0x08], by decide, by decide, by decide⟩],
      [.doBind 0, .addAddrUleb 0 ⟨[0x04], by decide, by decide, by decide⟩, .doBind 0,
        .addAddrUleb 0 ⟨[0x84, 0x00], by decide, by decide, by decide⟩]]
    bindListRetriever Env.plain (encodeProgram parts.flatten) oneSegmentContext 0 9 =
      bindListRetriever Env.plain (encodeProgram prog) oneSegmentContext 0 5 := by
  intro prog parts
  let copies : List (BitVec 4 × BitVec 4 × Uleb) :=
    [(0, 0, ⟨[0x04], by decide, by decide, by decide⟩),
      (0, 0, ⟨[0x84, 0x00], by decide, by decide, by decide⟩)]
  have htimes : Expands
      (.doBindUlebTimesSkippingUleb 0 ⟨[0x02], by decide, by decide, by decide⟩
        ⟨[0x04], by decide, by decide, by decide⟩)
      (copies.flatMap fun copy => [.doBind copy.1, .addAddrUleb copy.2.1 copy.2.2]) :=
    .ulebTimesSkippingUleb 0 (by decide) (by decide)
  have hexpands : List.Forall₂ Expands prog parts := .cons (.keep _) (.cons htimes .nil)
  have hat : HasAt (encodeProgram prog) 0 (encodeProgram prog) := by decide
  have hat' : HasAt (encodeProgram parts.flatten) 0 (encodeProgram parts.flatten) := by decide
  exact (bindListRetriever_expand Env.plain (encodeProgram prog) (encodeProgram parts.flatten)
    oneSegmentContext hexpands hat hat').1

/-! ## Programs that do not look back -/

/-- The opcode emits records. -/
def BindOp.binds : BindOp → Bool
  | .doBind _ | .doBindAddAddrUleb _ _ | .doBindAddAddrImmScaled _
  | .doBindUlebTimesSkippingUleb _ _ _ => true
  | _ => false

/-- The opcode sets the symbol. -/
def BindOp.setsSymbol : BindOp → Bool
  | .setSymbolTrailingFlagsImm _ _ => true
  | _ => false

/-- The opcode sets the segment and the offset. -/
def BindOp.setsSegment : BindOp → Bool
  | .setSegmentAndOffsetUleb _ _ => true
  | _ => false

/-- The opcodes in front of the first one that emits records. -/
def beforeBind (prog : List BindOp) : List BindOp := prog.takeWhile fun o => !o.binds

/-- The program sets its symbol and its segment and offset before its first bind opcode. -/
structure SetsBeforeBind (prog : List BindOp) : Prop where
  symbol : ∃ o ∈ beforeBind prog, o.setsSymbol
  segment : ∃ o ∈ beforeBind prog, o.setsSegment

instance (prog : List BindOp) : Decidable (SetsBeforeBind prog) :=
  decidable_of_iff ((∃ o ∈ beforeBind prog, o.setsSymbol) ∧ ∃ o ∈ beforeBind prog, o.setsSegment)
    ⟨fun ⟨h1, h2⟩ => ⟨h1, h2⟩, fun h => ⟨h.1, h.2⟩⟩

theorem BindOp.rows_of_not_binds {o : BindOp} (h : o.binds = false) (r : BindRegs) :
    o.rows r = [] := by
  cases o <;> first | rfl | cases h

theorem BindOp.symbol_regs {o : BindOp} (h : o.setsSymbol) (r r' : BindRegs) :
    (o.regs r).symbol = (o.regs r').symbol := by
  cases o <;> first | rfl | cases h

theorem BindOp.place_regs {o : BindOp} (h : o.setsSegment) (r r' : BindRegs) :
    (o.regs r).segment = (o.regs r').segment ∧ (o.regs r).offset = (o.regs r').offset := by
  cases o <;> first | exact ⟨rfl, rfl⟩ | cases h

theorem programRows_of_not_binds {os : List BindOp} (h : ∀ o ∈ os, o.binds = false) (r : BindRegs) :
    programRows r os = [] := by
  induction os generalizing r with
  | nil => rfl
  | cons o os ih =>
    rw [programRows_cons, BindOp.rows_of_not_binds (h o List.mem_cons_self),
      ih fun o' ho' => h o' (List.mem_cons_of_mem _ ho')]
    rfl

theorem programRegs_symbol_congr {os : List BindOp} (r r' : BindRegs)
    (h : r.symbol = r'.symbol ∨ ∃ o ∈ os, o.setsSymbol) :
    (programRegs r os).symbol = (programRegs r' os).symbol := by
  induction os generalizing r r' with
  | nil => simpa using h
  | cons o os ih =>
    apply ih
    rcases h with h | ⟨o', ho', hset⟩
    · left
      cases o <;> first | rfl | exact h
    · rcases List.mem_cons.mp ho' with rfl | ho'
      · exact Or.inl (BindOp.symbol_regs hset r r')
      · exact Or.inr ⟨o', ho', hset⟩

theorem programRegs_place_congr {os : List BindOp} (r r' : BindRegs)
    (h : r.segment = r'.segment ∧ r.offset = r'.offset ∨ ∃ o ∈ os, o.setsSegment) :
    (programRegs r os).segment = (programRegs r' os).segment ∧
      (programRegs r os).offset = (programRegs r' os).offset := by
  induction os generalizing r r' with
  | nil => simpa using h
  | cons o os ih =>
    apply ih
    rcases h with ⟨hs, ho⟩ | ⟨o', ho', hset⟩
    · left
      cases o <;> simp [BindOp.regs, hs, ho]
    · rcases List.mem_cons.mp ho' with rfl | ho'
      · exact Or.inl (BindOp.place_regs hset r r')
      · exact Or.inr ⟨o', ho', hset⟩

theorem programRows_congr {prog : List BindOp} (h : SetsBeforeBind prog) (r r' : BindRegs) :
    programRows r prog = programRows r' prog := by
  have hsplit : beforeBind prog ++ prog.dropWhile (fun o => !o.binds) = prog :=
    List.takeWhile_append_dropWhile
  have hnone : ∀ o ∈ beforeBind prog, o.binds = false := by
    intro o ho
    simpa using List.mem_takeWhile_imp ho
  have hsymbol := programRegs_symbol_congr r r' (Or.inr h.symbol)
  obtain ⟨hsegment, hoffset⟩ := programRegs_place_congr r r' (Or.inr h.segment)
  have hregs : programRegs r (beforeBind prog) = programRegs r' (beforeBind prog) := by
    cases hr : programRegs r (beforeBind prog)
    cases hr' : programRegs r' (beforeBind prog)
    simp_all
  rw [← hsplit, programRows_append, programRows_append, programRows_of_not_binds hnone,
    programRows_of_not_binds hnone, hregs]

/-- The second program is the first with `DONE` opcodes inserted. -/
inductive InsertsDone : List BindOp → List BindOp → Prop
  | nil : InsertsDone [] []
  | keep (o : BindOp) {os os' : List BindOp} (h : InsertsDone os os') :
    InsertsDone (o :: os) (o :: os')
  | insert (imm : BitVec 4) {os os' : List BindOp} (h : InsertsDone os os') :
    InsertsDone os (.done imm :: os')

/-- **`DONE` is neutral.** -/
theorem InsertsDone.rows_eq {os os' : List BindOp} (h : InsertsDone os os') (r : BindRegs) :
    programRows r os' = programRows r os ∧ programRegs r os' = programRegs r os := by
  induction h generalizing r with
  | nil => exact ⟨rfl, rfl⟩
  | keep o _ ih =>
    obtain ⟨hrows, hregs⟩ := ih (o.regs r)
    exact ⟨by rw [programRows_cons, programRows_cons, hrows], hregs⟩
  | insert imm _ ih => exact ih r

/-! ## Lazy binding -/

/-- Programs one behind the other, a `DONE` byte behind each, and `k` more zero bytes. -/
def lazyStream (progs : List (List BindOp)) (k : ℕ) : List Byte :=
  progs.flatMap (fun prog => encodeProgram prog ++ [0#8]) ++ List.replicate k 0#8

/-- The stream as one program. -/
def lazyProgram (progs : List (List BindOp)) (k : ℕ) : List BindOp :=
  progs.flatMap (fun prog => prog ++ [.done 0#4]) ++ List.replicate k (.done 0#4)

theorem encodeProgram_append (as bs : List BindOp) :
    encodeProgram (as ++ bs) = encodeProgram as ++ encodeProgram bs := List.flatMap_append

theorem encodeProgram_lazyProgram (progs : List (List BindOp)) (k : ℕ) :
    encodeProgram (lazyProgram progs k) = lazyStream progs k := by
  have hdone : ∀ k, encodeProgram (List.replicate k (.done 0#4)) = List.replicate k 0#8 := by
    intro k
    induction k with
    | zero => rfl
    | succ k ih =>
      rw [List.replicate_succ, List.replicate_succ, ← ih]
      rfl
  induction progs with
  | nil => simpa [lazyProgram, lazyStream] using hdone k
  | cons prog progs ih =>
    rw [lazyProgram, lazyStream] at ih
    have hone : encodeProgram [.done 0#4] = [0#8] := rfl
    rw [lazyProgram, lazyStream, List.flatMap_cons, List.flatMap_cons]
    simp only [List.append_assoc]
    rw [encodeProgram_append, encodeProgram_append, hone, ih]

theorem programRows_lazyProgram {progs : List (List BindOp)} (h : ∀ prog ∈ progs, SetsBeforeBind prog)
    (k : ℕ) (r : BindRegs) :
    programRows r (lazyProgram progs k) = progs.flatMap (programRows BindRegs.init) := by
  induction progs generalizing r with
  | nil =>
    refine programRows_of_not_binds (fun o ho => ?_) r
    rw [lazyProgram, List.flatMap_nil, List.nil_append] at ho
    rw [List.eq_of_mem_replicate ho]
    rfl
  | cons prog progs ih =>
    have hrest := ih (fun p hp => h p (List.mem_cons_of_mem _ hp))
    rw [lazyProgram] at hrest
    rw [lazyProgram, List.flatMap_cons, List.append_assoc, List.append_assoc, programRows_append,
      List.singleton_append, programRows_cons, hrest, List.flatMap_cons,
      programRows_congr (h prog List.mem_cons_self) r BindRegs.init]
    rfl

theorem foldl_bindListRetriever (E : Env) (g : File) {calls : List (ℕ × List BindOp)}
    (hat : ∀ call ∈ calls, HasAt g call.1 (encodeProgram call.2)) (c : MachContext) :
    calls.foldl (fun c call =>
        (bindListRetriever E g c call.1 (call.1 + (encodeProgram call.2).length)).2) c =
      { c with
        bList := c.bList ++ (calls.flatMap fun call => programRows BindRegs.init call.2).map
          (BindRegs.record c.segments) } := by
  induction calls generalizing c with
  | nil => simp
  | cons call calls ih =>
    have hcall := hat call List.mem_cons_self
    rw [List.foldl_cons, bindListRetriever_eq, bindRecords_encodeProgram _ E hcall rfl,
      ih fun call' h' => hat call' (List.mem_cons_of_mem _ h')]
    simp [programRecords]

/-- **Lazy-bind records are independent and `DONE` is neutral**: one call on a stream of programs,
each with a `DONE` behind it, and zero padding does what one call for each program does; and `DONE`
opcodes put in anywhere change neither the records nor the registers. -/
theorem bindListRetriever_lazy (E : Env) (f g : File) (c : MachContext)
    {calls : List (ℕ × List BindOp)} (k : ℕ) (hsets : ∀ call ∈ calls, SetsBeforeBind call.2)
    (hcalls : ∀ call ∈ calls, HasAt g call.1 (encodeProgram call.2)) {start : ℕ}
    (hat : HasAt f start (lazyStream (calls.map Prod.snd) k)) :
    (bindListRetriever E f c start (start + (lazyStream (calls.map Prod.snd) k).length)).2 =
        calls.foldl (fun c call =>
          (bindListRetriever E g c call.1 (call.1 + (encodeProgram call.2).length)).2) c ∧
      ∀ prog prog' p p', InsertsDone prog prog' → HasAt f p (encodeProgram prog) →
        HasAt g p' (encodeProgram prog') →
        let s := bindFinal E f c.segments c.bList p (p + (encodeProgram prog).length)
        let s' := bindFinal E g c.segments c.bList p' (p' + (encodeProgram prog').length)
        s'.bList = s.bList ∧ s'.symbolName = s.symbolName ∧ s'.segmentIndex = s.segmentIndex ∧
          s'.segmentOffset = s.segmentOffset := by
  constructor
  · rw [foldl_bindListRetriever E g hcalls, bindListRetriever_eq]
    rw [← encodeProgram_lazyProgram] at hat ⊢
    have hprogs : ∀ prog ∈ calls.map Prod.snd, SetsBeforeBind prog := by
      intro prog hprog
      obtain ⟨call, hcall, rfl⟩ := List.mem_map.mp hprog
      exact hsets call hcall
    rw [bindRecords_encodeProgram _ E hat rfl, programRecords, programRows_lazyProgram hprogs,
      List.flatMap_map]
  · intro prog prog' p p' hins hp hp' s s'
    obtain ⟨hrows, hregs⟩ := hins.rows_eq BindRegs.init
    have hs : s = _ := bindFinal_encodeProgram c.segments E c.bList hp
    have hs' : s' = _ := bindFinal_encodeProgram c.segments E c.bList hp'
    rw [hregs, programRecords, hrows] at hs'
    rw [hs, hs']
    exact ⟨rfl, rfl, rfl, rfl⟩

/-- Two lazy records, each a pointer at `0x5008` and `0x5010`. -/
def lazyPrograms : List (List BindOp) :=
  [[.setSymbolTrailingFlagsImm 0 ⟨lit "_f", by decide⟩,
      .setSegmentAndOffsetUleb 0 ⟨[0x08], by decide, by decide, by decide⟩, .doBind 0],
    [.setSegmentAndOffsetUleb 0 ⟨[0x10], by decide, by decide, by decide⟩,
      .setSymbolTrailingFlagsImm 0 ⟨lit "_g", by decide⟩, .doBind 0]]

theorem bindListRetriever_lazy_two :
    (bindListRetriever Env.plain (lazyStream lazyPrograms 2) oneSegmentContext 0 18).2.bList =
      [⟨some (lit "_f"), 0x5008#64⟩, ⟨some (lit "_g"), 0x5010#64⟩] := by
  have hsets : ∀ call ∈ [0, 8].zip lazyPrograms, SetsBeforeBind call.2 := by decide
  have hat : HasAt (lazyStream lazyPrograms 2) 0
      (lazyStream (([0, 8].zip lazyPrograms).map Prod.snd) 2) := by decide
  have hlazy := (bindListRetriever_lazy Env.plain (lazyStream lazyPrograms 2)
    (lazyStream lazyPrograms 2) oneSegmentContext 2 hsets (by decide) hat).1
  have hlength : 0 + (lazyStream (([0, 8].zip lazyPrograms).map Prod.snd) 2).length = 18 := by decide
  rw [hlength] at hlazy
  rw [hlazy]
  decide

end Maloader
