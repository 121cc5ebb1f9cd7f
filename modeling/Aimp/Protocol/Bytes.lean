import Mathlib.Data.List.Lex
import Mathlib.Data.Fin.Basic
import Mathlib.Order.Fin.Basic
import Mathlib.Tactic.Ring

/-!
# Byte strings

The fixed-size integers and byte arrays of the protocol. A `u8` is a `Byte`, a `[u8; n]` a list of
`n` bytes, ordered lexicographically as in the source, and a `u64` an element of `Fin (2 ^ 64)`.
Strings are Lean strings, hashed and sent as their UTF-8 bytes.
-/

namespace Aimp

/-- `u8`. -/
abbrev Byte := Fin 256

/-- `[u8; n]`. -/
abbrev ByteArr (n : ℕ) := {b : List Byte // b.length = n}

/-- `u64`. -/
abbrev U64 := Fin (2 ^ 64)

/-- `Hash32`: a BLAKE3 digest. -/
abbrev Hash32 := ByteArr 32

/-- `NodeId`: an Ed25519 public key. -/
abbrev NodeId := ByteArr 32

/-- An Ed25519 signature. -/
abbrev Signature := ByteArr 64

/-- The numerals of the integer types. -/
instance neZero_byte : NeZero 256 := ⟨Nat.succ_ne_zero 255⟩

instance neZero_u64 : NeZero (2 ^ 64) := ⟨(Nat.two_pow_pos 64).ne'⟩

instance lawfulBEq_hash32 : LawfulBEq Hash32 := inferInstance

/-- The lengths of the digests and keys that samples are made of. -/
theorem length_uniform (b : Byte) : (List.replicate 32 b).length = 32 := List.length_replicate ..

theorem length_ones : (List.replicate 32 (1 : Byte)).length = 32 := length_uniform 1

theorem length_twos : (List.replicate 32 (2 : Byte)).length = 32 := length_uniform 2

theorem length_leading (b : Byte) : (b :: List.replicate 31 0).length = 32 := by simp

/-- `[0u8; n]`. -/
def zeros (n : ℕ) : ByteArr n := ⟨List.replicate n 0, by simp⟩

/-- The `n` little-endian bytes of `x`, which fits in them. -/
def leBytes : ℕ → ℕ → List Byte
  | 0, _ => []
  | n + 1, x => Fin.ofNat 256 x :: leBytes n (x / 256)

@[simp] theorem length_leBytes (n x : ℕ) : (leBytes n x).length = n := by
  induction n generalizing x with
  | zero => rfl
  | succ n ih => simp [leBytes, ih]

theorem leBytes_inj {n x y : ℕ} (hx : x < 256 ^ n) (hy : y < 256 ^ n)
    (h : leBytes n x = leBytes n y) : x = y := by
  induction n generalizing x y with
  | zero => omega
  | succ n ih =>
    obtain ⟨hhead, htail⟩ := List.cons.inj h
    have hdiv : x / 256 = y / 256 :=
      ih (by rw [pow_succ] at hx; omega) (by rw [pow_succ] at hy; omega) htail
    have hmod : x % 256 = y % 256 := congrArg Fin.val hhead
    omega

/-- `u64::to_le_bytes`. -/
def toLeBytes (x : U64) : ByteArr 8 := ⟨leBytes 8 x.val, length_leBytes 8 x.val⟩

theorem toLeBytes_injective : Function.Injective toLeBytes := by
  intro x y h
  have hpow : 2 ^ 64 = (256 : ℕ) ^ 8 := by norm_num
  exact Fin.ext (leBytes_inj (lt_of_lt_of_eq x.isLt hpow) (lt_of_lt_of_eq y.isLt hpow)
    (congrArg Subtype.val h))

/-- `str::as_bytes`. -/
def asBytes (s : String) : List Byte := s.toByteArray.data.toList.map UInt8.toFin

theorem asBytes_append (s t : String) : asBytes (s ++ t) = asBytes s ++ asBytes t := by
  simp [asBytes, String.toByteArray_append]

theorem asBytes_injective : Function.Injective asBytes := by
  intro s t h
  have hfin : Function.Injective UInt8.toFin := fun a b hab => UInt8.toFin_inj.mp hab
  have hdata := List.map_injective_iff.mpr hfin h
  exact String.toByteArray_inj.mp (ByteArray.ext (Array.toList_inj.mp hdata))

/-- One hexadecimal digit. -/
def hexDigit (n : ℕ) : Char := Char.ofNat (if n < 10 then '0'.toNat + n else 'a'.toNat + (n - 10))

/-- `hex::encode`. -/
def hexEncode (b : List Byte) : String :=
  String.ofList (b.flatMap fun x => [hexDigit (x.val / 16), hexDigit (x.val % 16)])

end Aimp
