import Maloader.Host.Model

/-!
# The names imports are looked up under

`normalize_macho_symbol_name` works in a buffer of 256 bytes: what does not fit is cut off before the
lookup.

* `strippedName`, `hostLookup`: the name of an import without its underscore and its suffix, and the
  lookup of a name as it stands; `resolveMachoImportSymbol_eq`.
* `normalizeMachoSymbolName_eq_take`: the buffer holds the first bytes of the stripped name.
* `LookedUpWhole`, **`lookedUpWhole_iff`**: exactly when imports are looked up under their names.
-/

namespace Maloader

open ByteLib

/-- The import's name without one leading underscore, cut at its first `$`. -/
def strippedName (machoName : CString) : CString :=
  (dropUnderscore machoName).takeWhile (· ≠ 0x24#8)

/-- The shims and `dlsym` for one name: libc, libm, then everything loaded. -/
def hostLookup (H : Host) (name : CString) : Addr :=
  match darwinShim name with
  | some symbol => H.addressOf symbol
  | none =>
    let libc := H.dlopen libcName
    let libm := H.dlopen libmName
    if libc ≠ 0#64 ∧ H.dlsym libc name ≠ 0#64 then H.dlsym libc name
    else if libm ≠ 0#64 ∧ H.dlsym libm name ≠ 0#64 then H.dlsym libm name
    else H.dlsym rtldDefault name

theorem resolveMachoImportSymbol_eq (H : Host) (machoName : CString) :
    resolveMachoImportSymbol H (some machoName) =
      hostLookup H (normalizeMachoSymbolName machoName namebufSize) := rfl

/-- **The buffer** holds the first bytes of the stripped name. -/
theorem normalizeMachoSymbolName_eq_take (machoName : CString) (outSize : ℕ) :
    normalizeMachoSymbolName machoName outSize = (strippedName machoName).take (outSize - 1) :=
  List.take_takeWhile.symm

theorem normalizeMachoSymbolName_eq_iff (machoName : CString) :
    normalizeMachoSymbolName machoName namebufSize = strippedName machoName ↔
      (strippedName machoName).length < namebufSize := by
  rw [normalizeMachoSymbolName_eq_take, List.take_eq_self_iff]
  exact Nat.le_sub_one_iff_lt (by decide)

/-- Two imports are looked up under their stripped names, and under one name only if these are equal. -/
structure LookedUpWhole (n n' : CString) : Prop where
  left : normalizeMachoSymbolName n namebufSize = strippedName n ∧
    ∀ H, resolveMachoImportSymbol H (some n) = hostLookup H (strippedName n)
  right : normalizeMachoSymbolName n' namebufSize = strippedName n' ∧
    ∀ H, resolveMachoImportSymbol H (some n') = hostLookup H (strippedName n')
  injective : normalizeMachoSymbolName n namebufSize = normalizeMachoSymbolName n' namebufSize →
    strippedName n = strippedName n'

/-- **Imports are looked up under their whole names** exactly if the stripped names fit into the
buffer with their NUL. -/
theorem lookedUpWhole_iff (n n' : CString) :
    LookedUpWhole n n' ↔
      (strippedName n).length < namebufSize ∧ (strippedName n').length < namebufSize := by
  constructor
  · intro h
    exact ⟨(normalizeMachoSymbolName_eq_iff n).mp h.left.1,
      (normalizeMachoSymbolName_eq_iff n').mp h.right.1⟩
  · rintro ⟨hn, hn'⟩
    have hleft := (normalizeMachoSymbolName_eq_iff n).mpr hn
    have hright := (normalizeMachoSymbolName_eq_iff n').mpr hn'
    refine ⟨⟨hleft, fun H => ?_⟩, ⟨hright, fun H => ?_⟩, fun h => ?_⟩
    · rw [resolveMachoImportSymbol_eq, hleft]
    · rw [resolveMachoImportSymbol_eq, hright]
    · rw [← hleft, h, hright]

/-- A name of 256 bytes behind its underscore. -/
def longName (last : Byte) : CString := 0x5f#8 :: (List.replicate 255 0x61#8 ++ [last])

/-- Two such names are looked up under the first 255 of these bytes. -/
theorem lookedUp_longName :
    normalizeMachoSymbolName (longName 0x62#8) namebufSize =
        normalizeMachoSymbolName (longName 0x63#8) namebufSize ∧
      strippedName (longName 0x62#8) ≠ strippedName (longName 0x63#8) := by
  decide +kernel

end Maloader
