import Maloader.Link.Image
import Maloader.Main.Image

/-!
# The pointers of a file

An executable whose chained fixups were written from a payload: what its pointers are in the image that
`main` calls.

* `HasPayload`: the payload is in the file and its entries are in the image.
* `HasPayload.wellFormedFixups`, `HasPayload.fileFixups_eq`: its entries are those of the file.
* **`HasPayload.load64_pointer`**, `HasPayload.countP_unresolved`: the pointers in the bound image, and
  how many of them have no address.
-/

namespace Maloader

open ByteLib

/-- The chained fixups of the file are the payload, over segments that are recorded and mapped, and its
entries are in the image. -/
structure HasPayload (f : File) (base n : ℕ) (P : ChainedPayload) : Prop where
  command : chainedOf (commands f) = [⟨fixupsOff f, P.encode.length⟩]
  payload : HasAt f (fixupsOff f) P.encode
  fits : P.Fits n
  mapped : ∀ i s, P.segmentAt i = some s → (referenceTable f base).Mapped i
  spells : P.Spells (referenceImage f base)

variable {f : File} {base top n : ℕ} {B : Addr} {P : ChainedPayload} {tables : List BindPrograms}

theorem HasPayload.wellFormedFixups (h : HasPayload f base n P) :
    WellFormedFixups f base n P.chain where
  one := by rw [h.command]; exact le_rfl
  chains fixups hfixups := by
    rw [h.command] at hfixups
    rw [List.mem_singleton.mp hfixups]
    exact ChainedPayload.wellFormedChains_of_spells h.payload h.fits h.spells

theorem HasPayload.fileFixups_eq (h : HasPayload f base n P) : fileFixups f base P.chain = P.fixups := by
  rw [fileFixups, h.command, List.flatMap_singleton]
  exact ChainedPayload.payloadFixups_of_spells h.payload h.fits h.spells h.mapped

theorem HasPayload.countP_unresolved (h : HasPayload f base n P) (E : Env) (img : Addr) :
    (fileFixups f base P.chain).countP (Fixup.unresolved E f (fixupsOff f)) =
      P.pointers.countP fun x => (x.2.value E P.imports img).isNone := by
  rw [h.fileFixups_eq]
  refine ChainedPayload.countP_fixups h.fits fun x e hxe => ?_
  rw [Fixup.unresolved, ← isUnresolved_eq E img e.raw]
  exact hxe.isUnresolved E h.payload h.fits img

/-- **A pointer of the bound image** holds the address it stands for; a pointer to an import that the
host does not have is left as it is in the file. -/
theorem HasPayload.load64_pointer (h : HasPayload f base n P) {S : System} {m m' : Mem 64}
    (himage : BoundImage S f base top P.chain tables B m m') {x : ℕ × Pointer} (hx : x ∈ P.pointers) :
    load64 m' (B + BitVec.ofNat 64 x.1) =
      (x.2.value S.loaderEnv P.imports B).getD (word64 (referenceImage f base) x.1) := by
  obtain ⟨e, he, hxe⟩ := ChainedPayload.exists_entryOf h.fits hx
  have hraw : e.raw = word64 (referenceImage f base) x.1 := by
    rw [← hxe.offset]
    exact (h.spells e he).symm
  have hvalue := hxe.fixupValue S.loaderEnv h.payload h.fits B
  rw [← hxe.offset, himage.entries e (h.fileFixups_eq ▸ he), hvalue, hxe.offset, hraw]

end Maloader
