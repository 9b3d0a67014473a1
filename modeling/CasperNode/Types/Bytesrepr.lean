import Mathlib
import CasperNode.Lib.ExceptBind

/-!
The parts of `bytesrepr` (`types/src/bytesrepr.rs`) that `CLType` is written with: the
error type, `safe_split_at`, and `u8` and little-endian `u32`. A reader takes a slice and
returns the value with the rest of the slice, so here a list of bytes.
-/

namespace Bytesrepr

inductive Error where
  | earlyEndOfStream
  | formatting
  | leftOverBytes
  | outOfMemory
  | notRepresentable
  | exceededRecursionDepth
  deriving DecidableEq, Repr

def U32_SERIALIZED_LENGTH : Nat := 4

def safeSplitAt (bytes : List UInt8) (n : Nat) : Except Error (List UInt8 × List UInt8) :=
  if n > bytes.length then .error .earlyEndOfStream else .ok (bytes.take n, bytes.drop n)

/-- `FromBytes for u8`: the first byte. -/
def u8FromBytes : List UInt8 → Except Error (UInt8 × List UInt8)
  | [] => .error .earlyEndOfStream
  | byte :: rem => .ok (byte, rem)

/-- `u32::to_le_bytes`: byte `i` is the value over `256 ^ i`, modulo 256. -/
def u32ToBytes (value : UInt32) : List UInt8 :=
  (List.range U32_SERIALIZED_LENGTH).map fun i => UInt8.ofNat (value.toNat / 256 ^ i)

/-- `u32::from_le_bytes`. -/
def u32FromLeBytes (bytes : List UInt8) : UInt32 :=
  UInt32.ofNat (bytes.foldr (fun byte acc => byte.toNat + 256 * acc) 0)

/-- `FromBytes for u32`: four bytes, least significant first. -/
def u32FromBytes (bytes : List UInt8) : Except Error (UInt32 × List UInt8) := do
  let (bytes, remainder) ← safeSplitAt bytes U32_SERIALIZED_LENGTH
  .ok (u32FromLeBytes bytes, remainder)

@[simp] theorem u8FromBytes_cons (byte : UInt8) (rem : List UInt8) : u8FromBytes (byte :: rem) = .ok (byte, rem) :=
  rfl

theorem length_u32ToBytes (value : UInt32) : (u32ToBytes value).length = U32_SERIALIZED_LENGTH := by
  simp [u32ToBytes]

theorem u32FromBytes_u32ToBytes (value : UInt32) (rest : List UInt8) :
    u32FromBytes (u32ToBytes value ++ rest) = .ok (value, rest) := by
  have bounded := value.toNat_lt
  have digits : (u32ToBytes value).foldr (fun byte acc => byte.toNat + 256 * acc) 0 = value.toNat := by
    simp only [u32ToBytes, U32_SERIALIZED_LENGTH, List.range_succ, List.range_zero, List.nil_append,
      List.map_cons, List.map_nil, List.cons_append, List.foldr_cons, List.foldr_nil, UInt8.toNat_ofNat']
    omega
  have split : safeSplitAt (u32ToBytes value ++ rest) U32_SERIALIZED_LENGTH = .ok (u32ToBytes value, rest) := by
    have length := length_u32ToBytes value
    rw [safeSplitAt, if_neg (by simp [length]), List.take_left' length, List.drop_left' length]
  rw [u32FromBytes, split, Except.ok_bind]
  simp only [u32FromLeBytes, digits, UInt32.ofNat_toNat]

theorem u32FromBytes_eq_ok {bytes rest : List UInt8} {value : UInt32}
    (read : u32FromBytes bytes = .ok (value, rest)) : bytes = u32ToBytes value ++ rest := by
  match bytes, read with
  | b0 :: b1 :: b2 :: b3 :: remainder, read =>
    have split : safeSplitAt (b0 :: b1 :: b2 :: b3 :: remainder) U32_SERIALIZED_LENGTH =
        .ok ([b0, b1, b2, b3], remainder) := by
      rw [safeSplitAt, if_neg (by simp [U32_SERIALIZED_LENGTH])]
      rfl
    rw [u32FromBytes, split, Except.ok_bind, Except.ok.injEq, Prod.mk.injEq] at read
    obtain ⟨rfl, rfl⟩ := read
    -- four bytes, each below 256, are the base-256 digits of their sum
    have first := b0.toNat_lt
    have second := b1.toNat_lt
    have third := b2.toNat_lt
    have fourth := b3.toNat_lt
    have small : b0.toNat + 256 * (b1.toNat + 256 * (b2.toNat + 256 * (b3.toNat + 256 * 0))) < UInt32.size := by
      simp only [UInt32.size]
      omega
    simp only [u32ToBytes, u32FromLeBytes, U32_SERIALIZED_LENGTH, List.range_succ, List.range_zero,
      List.nil_append, List.map_cons, List.map_nil, List.cons_append, List.foldr_cons,
      List.foldr_nil, UInt32.toNat_ofNat_of_lt' small, List.cons.injEq, and_true]
    refine ⟨?_, ?_, ?_, ?_⟩ <;> apply UInt8.toNat_inj.mp <;> simp only [UInt8.toNat_ofNat'] <;> omega
  | [], read | [_], read | [_, _], read | [_, _, _], read =>
    simp [u32FromBytes, safeSplitAt, U32_SERIALIZED_LENGTH] at read

end Bytesrepr
