import Maloader.Lib.Bytes

/-!
# Base-128 numbers

A LEB128 byte string: seven value bits a byte, lowest first, the top bit set on every byte but the
last. Redundant continuation bytes are allowed, so a number has many encodings.

* `IsLeb`, `lebVal`: the well-formed byte strings and the number they spell.
* `Uleb`: an encoding of at most ten bytes of a number below `2 ^ 64`, with its proofs;
  `Uleb.ofByte`: one of one byte.
* `leb_induction`: induction along an encoding.
* `or_shiftLeft_eq`: seven new bits above the old ones are an addition.
-/

namespace ByteLib

/-- The byte asks for another one. -/
def continues (b : Byte) : Prop := b &&& 0x80#8 ≠ 0#8

instance (b : Byte) : Decidable (continues b) := by unfold continues; infer_instance

/-- The seven value bits of a byte. -/
def payload (b : Byte) : ℕ := b.toNat % 128

/-- Well-formed LEB128: every byte but the last continues. -/
def IsLeb : List Byte → Prop
  | [] => False
  | [b] => ¬ continues b
  | b :: b' :: bs => continues b ∧ IsLeb (b' :: bs)

instance decIsLeb : (bs : List Byte) → Decidable (IsLeb bs)
  | [] => .isFalse id
  | [b] => inferInstanceAs (Decidable (¬ continues b))
  | _ :: b' :: bs => @instDecidableAnd _ _ _ (decIsLeb (b' :: bs))

/-- The number a LEB128 byte string spells. -/
def lebVal : List Byte → ℕ
  | [] => 0
  | b :: bs => payload b + 128 * lebVal bs

/-- A number below `2 ^ 64` in any encoding of at most ten bytes. -/
structure Uleb where
  bytes : List Byte
  isLeb : IsLeb bytes
  length_le : bytes.length ≤ 10
  val_lt : lebVal bytes < 2 ^ 64

/-- The number encoded, as a 64-bit word. -/
def Uleb.val (u : Uleb) : BitVec 64 := BitVec.ofNat 64 (lebVal u.bytes)

/-- A signed or unsigned operand of at most ten bytes whose value nobody reads. -/
structure LebBytes where
  bytes : List Byte
  isLeb : IsLeb bytes
  length_le : bytes.length ≤ 10

theorem payload_lt (b : Byte) : payload b < 128 := Nat.mod_lt _ (by decide)

/-- A number below 128 in one byte. -/
def Uleb.ofByte (b : Byte) (hb : ¬ continues b) : Uleb where
  bytes := [b]
  isLeb := hb
  length_le := Nat.le_add_left 1 9
  val_lt := (payload_lt b).trans (by norm_num)

theorem payload_eq_and (b : Byte) : ((b &&& 0x7f#8).zeroExtend 64).toNat = payload b := by
  have h : (b &&& 0x7f#8).toNat = b.toNat % 128 := by
    rw [BitVec.toNat_and]
    exact Nat.and_two_pow_sub_one_eq_mod _ 7
  have hlt := payload_lt b
  rw [BitVec.toNat_setWidth, h, payload]
  exact Nat.mod_eq_of_lt (by unfold payload at hlt; omega)

/-- **Induction along an encoding**: a last byte, or a continuing byte in front of an encoding. -/
theorem leb_induction {P : List Byte → Prop} (last : ∀ b, ¬ continues b → P [b])
    (more : ∀ b bs, continues b → IsLeb bs → P bs → P (b :: bs)) :
    ∀ bs, IsLeb bs → P bs
  | [b], h => last b h
  | b :: b' :: bs, h => more b (b' :: bs) h.1 h.2 (leb_induction last more (b' :: bs) h.2)

/-- **Seven bits or-ed in above the old ones are added**, as long as the sum fits in 64 bits. -/
theorem or_shiftLeft_eq {r : BitVec 64} {b : Byte} {bit : ℕ} (hr : r.toNat < 2 ^ bit)
    (hfit : r.toNat + payload b * 2 ^ bit < 2 ^ 64) :
    (r ||| (b &&& 0x7f#8).zeroExtend 64 <<< bit).toNat = r.toNat + payload b * 2 ^ bit := by
  rw [BitVec.toNat_or, BitVec.toNat_shiftLeft, payload_eq_and, Nat.shiftLeft_eq,
    Nat.mod_eq_of_lt (by omega), Nat.or_comm, Nat.mul_comm,
    ← Nat.two_pow_add_eq_or_of_lt hr, Nat.add_comm]

end ByteLib
