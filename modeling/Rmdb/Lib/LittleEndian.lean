import Mathlib.Algebra.Order.Ring.Int
import Mathlib.Data.List.Basic
import Mathlib.Tactic.Positivity

/-
  Fixed-width little-endian numbers in lists of bytes, and the
  fields of a list of bytes at given offsets.

  Key definitions include:
    * `LittleEndian.encode`, `LittleEndian.decode`
    * `LittleEndian.encodeInt`, `LittleEndian.decodeInt`
    * `LittleEndian.slice`

  Key theorems include:
    * `LittleEndian.decode_encode`
    * `LittleEndian.decodeInt_encodeInt`
    * `LittleEndian.decodeInt_injective`
    * `LittleEndian.slice_at`
    * `LittleEndian.slice_append_left`
-/

namespace LittleEndian

------------
-- Numbers
------------

/- The `w` low bytes of a number, lowest first. -/
def encode : Nat → Nat → List UInt8
| 0, _ => []
| w + 1, n => UInt8.ofNat n :: encode w (n / 256)

def decode : List UInt8 → Nat
| [] => 0
| b :: bs => b.toNat + 256 * decode bs

@[simp] theorem length_encode (w n : Nat) : (encode w n).length = w := by
  induction w generalizing n with
  | zero => rfl
  | succ w ih => simp [encode, ih]

/- Decoding gives the number back up to its high bytes. -/
theorem decode_encode_mod (w n : Nat) : decode (encode w n) = n % 256 ^ w := by
  induction w generalizing n with
  | zero => simp [encode, decode, Nat.mod_one]
  | succ w ih =>
    have hByte : (UInt8.ofNat n).toNat = n % 256 := by simp
    rw [encode, decode, ih, hByte, pow_succ, mul_comm (256 ^ w), Nat.mod_mul]

theorem decode_encode
    {w n : Nat}
    (hLt : n < 256 ^ w) :
    decode (encode w n) = n := by
  rw [decode_encode_mod, Nat.mod_eq_of_lt hLt]

/- A signed number in two's complement. -/
def encodeInt (w : Nat) (z : Int) : List UInt8 :=
  encode w (z % 256 ^ w).toNat

def decodeInt (bs : List UInt8) : Int :=
  Int.bmod (decode bs) (256 ^ bs.length)

@[simp] theorem length_encodeInt
    (w : Nat)
    (z : Int) :
    (encodeInt w z).length = w :=
  length_encode w _

theorem decodeInt_encodeInt
    {w : Nat}
    {z : Int}
    (hLow : -(256 ^ w) ≤ 2 * z)
    (hHigh : 2 * z < 256 ^ w) :
    decodeInt (encodeInt w z) = z := by
  have hPos : (0 : Int) < 256 ^ w := by positivity
  have hNonneg := Int.emod_nonneg z hPos.ne'
  have hLt := Int.emod_lt_of_pos z hPos
  have hNat : (z % 256 ^ w).toNat < 256 ^ w := by
    have hCast : ((z % 256 ^ w).toNat : Int) < (256 ^ w : Nat) := by
      rw [Int.toNat_of_nonneg hNonneg]
      exact_mod_cast hLt
    exact_mod_cast hCast
  have hMod : Int.bmod z (256 ^ w) = z := by
    apply Int.bmod_eq_of_le_mul_two
    · push_cast
      omega
    · push_cast
      omega
  calc
    decodeInt (encodeInt w z) = Int.bmod ((z % 256 ^ w).toNat : Nat) (256 ^ w) := by
      rw [decodeInt, length_encodeInt, encodeInt, decode_encode hNat]
    _ = Int.bmod (z % (256 ^ w : Nat)) (256 ^ w) := by
      rw [Int.toNat_of_nonneg hNonneg]
      push_cast
      rfl
    _ = z := by rw [Int.emod_bmod, hMod]

theorem decode_lt (bs : List UInt8) : decode bs < 256 ^ bs.length := by
  induction bs with
  | nil => simp [decode]
  | cons b bs ih =>
    have hByte : b.toNat < 256 := b.toNat_lt
    rw [decode, List.length_cons, pow_succ]
    omega

/- Bytes are known from the number that they stand for. -/
theorem decode_injective
    {as bs : List UInt8}
    (hLength : as.length = bs.length)
    (hEq : decode as = decode bs) :
    as = bs := by
  induction as generalizing bs with
  | nil => exact (List.length_eq_zero_iff.mp hLength.symm).symm
  | cons a as ih =>
    cases bs with
    | nil => simp at hLength
    | cons b bs =>
      have hA : a.toNat < 256 := a.toNat_lt
      have hB : b.toNat < 256 := b.toNat_lt
      rw [decode, decode] at hEq
      have hByte : a.toNat = b.toNat := by omega
      have hRest := ih (by simpa using hLength) (by omega)
      rw [UInt8.toNat_inj.mp hByte, hRest]

theorem encode_decode (bs : List UInt8) : encode bs.length (decode bs) = bs :=
  decode_injective (length_encode _ _) (decode_encode (decode_lt bs))

theorem encodeInt_decodeInt (bs : List UInt8) :
    encodeInt bs.length (decodeInt bs) = bs := by
  have hCast : ((256 ^ bs.length : Nat) : Int) = 256 ^ bs.length := by push_cast; rfl
  have hMod : decodeInt bs % 256 ^ bs.length = (decode bs : Int) := by
    rw [decodeInt, ← hCast, Int.bmod_emod]
    exact Int.emod_eq_of_lt (by omega) (by exact_mod_cast decode_lt bs)
  rw [encodeInt, hMod, Int.toNat_natCast, encode_decode]

theorem decodeInt_injective
    {as bs : List UInt8}
    (hLength : as.length = bs.length)
    (hEq : decodeInt as = decodeInt bs) :
    as = bs := by
  have hA := decode_lt as
  have hB := decode_lt bs
  refine decode_injective hLength ?_
  unfold decodeInt at hEq
  rw [hLength] at hEq hA
  have hMod := congrArg (· % ((256 ^ bs.length : Nat) : Int)) hEq
  simp only [Int.bmod_emod] at hMod
  have hNat : decode as % 256 ^ bs.length = decode bs % 256 ^ bs.length := by exact_mod_cast hMod
  rwa [Nat.mod_eq_of_lt hA, Nat.mod_eq_of_lt hB] at hNat

------------
-- Fields
------------

/- The bytes of a field. -/
def slice (bs : List UInt8) (offset n : Nat) : List UInt8 :=
  (bs.drop offset).take n

/- A field with something before it and something after it. -/
theorem slice_at
    {pre field rest : List UInt8}
    {offset n : Nat}
    (hOffset : pre.length = offset)
    (hLen : field.length = n) :
    slice (pre ++ (field ++ rest)) offset n = field := by
  subst hOffset hLen
  simp [slice]

/- Two fields side by side. -/
theorem slice_add
    (bs : List UInt8)
    (offset m n : Nat) :
    slice bs offset (m + n) = slice bs offset m ++ slice bs (offset + m) n := by
  unfold slice
  rw [List.take_add, List.drop_drop]

/- A field does not depend on what follows. -/
theorem slice_append_left
    {a : List UInt8}
    {offset n : Nat}
    (b : List UInt8)
    (hLe : offset + n ≤ a.length) :
    slice (a ++ b) offset n = slice a offset n := by
  unfold slice
  rw [List.drop_append_of_le_length (by omega), List.take_append_of_le_length]
  rw [List.length_drop]
  omega

end LittleEndian
