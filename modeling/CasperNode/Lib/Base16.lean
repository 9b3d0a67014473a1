import Mathlib
import CasperNode.Lib.ExceptBind

/-!
The `base16` crate, a dependency of `types` and not part of this repository. Its `encode_lower`
and `decode` are the fields of a `Codec`; what the checksummed hex and the key texts need of them
is stated where it is used, as hypotheses: `decode` reads back what `encode_lower` writes,
`encode_lower` writes only the sixteen lowercase digits, and a string `decode` accepts has two
characters for each byte.

`Sample` is one codec with these three properties, after the crate's `encode_lower` and `decode`
(the high half of a byte first, digits of either case read, an odd length refused). It shows
that the hypotheses hold together, and the witnesses run on it.
-/

namespace Base16

/-- The digits `encode_lower` writes. -/
def LOWER_DIGITS : List Char :=
  ['0', '1', '2', '3', '4', '5', '6', '7', '8', '9', 'a', 'b', 'c', 'd', 'e', 'f']

inductive DecodeError where
  | invalidByte (index : Nat) (byte : Char)
  | invalidLength (length : Nat)
  deriving DecidableEq, Repr

/-- `base16::encode_lower` and `base16::decode`. -/
structure Codec where
  encodeLower : List UInt8 → List Char
  decode : List Char → Except DecodeError (List UInt8)

namespace Sample

/-- `DECODE_LUT`: the value of a hex digit of either case, and `none` for any other
character. -/
def decodeLut (c : Char) : Option Nat :=
  if '0' ≤ c ∧ c ≤ '9' then some (c.toNat - '0'.toNat)
  else if 'a' ≤ c ∧ c ≤ 'f' then some (c.toNat - 'a'.toNat + 10)
  else if 'A' ≤ c ∧ c ≤ 'F' then some (c.toNat - 'A'.toNat + 10)
  else none

/-- The two digits of a byte, the high half first; the halves index `LOWER_DIGITS`, which has
sixteen entries. -/
def encodeByte (byte : UInt8) : List Char :=
  [LOWER_DIGITS.getD (byte >>> 4).toNat '0', LOWER_DIGITS.getD (byte &&& 0x0f).toNat '0']

/-- `encode_lower`. -/
def encodeLower (bytes : List UInt8) : List Char := bytes.flatMap encodeByte

/-- `decode_slice_raw`, from the pair that starts at `index`: the byte of each pair is
`(r0 << 4) | r1`, and an error is the index of the first pair with a bad digit. -/
def decodeSliceRaw (index : Nat) : List Char → Except Nat (List UInt8)
  | c0 :: c1 :: rest =>
    match decodeLut c0, decodeLut c1 with
    | some r0, some r1 => (decodeSliceRaw (index + 2) rest).map (UInt8.ofNat (16 * r0 + r1) :: ·)
    | _, _ => .error index
  | _ => .ok []

/-- `invalid_byte`: the bad digit of the pair at `index`, the first one if it is bad. -/
def invalidByte (index : Nat) (src : List Char) : DecodeError :=
  if (decodeLut (src.getD index ' ')).isNone then .invalidByte index (src.getD index ' ')
  else .invalidByte (index + 1) (src.getD (index + 1) ' ')

/-- `decode`: an odd length is refused before any digit is read. -/
def decode (src : List Char) : Except DecodeError (List UInt8) :=
  if src.length % 2 ≠ 0 then .error (.invalidLength src.length)
  else
    match decodeSliceRaw 0 src with
    | .ok bytes => .ok bytes
    | .error index => .error (invalidByte index src)

theorem decodeLut_lower {digit : Nat} (small : digit < 16) : decodeLut (LOWER_DIGITS.getD digit '0') = some digit := by
  interval_cases digit <;> rfl

theorem byte_halves (byte : UInt8) :
    16 * (byte >>> 4).toNat + (byte &&& 0x0f).toNat = byte.toNat := by
  have low : (byte &&& 0x0f).toNat = byte.toNat % 16 := by
    rw [UInt8.toNat_and]
    exact Nat.and_two_pow_sub_one_eq_mod byte.toNat 4
  have high : (byte >>> 4).toNat = byte.toNat / 16 := by
    rw [UInt8.toNat_shiftRight]
    simp [Nat.shiftRight_eq_div_pow]
  rw [low, high]
  omega

theorem high_lt (byte : UInt8) : (byte >>> 4).toNat < 16 := by
  have halves := byte_halves byte
  have bounded := byte.toNat_lt
  omega

theorem low_lt (byte : UInt8) : (byte &&& 0x0f).toNat < 16 := by
  rw [UInt8.toNat_and]
  exact Nat.and_lt_two_pow _ (by decide : (0x0f : UInt8).toNat < 2 ^ 4)

/-- The values of the two digits of a byte, the high half first. -/
def halves (byte : UInt8) : List Nat := [(byte >>> 4).toNat, (byte &&& 0x0f).toNat]

/-- Characters whose digit values are the halves of the bytes, in order, decode as those bytes,
whatever the case of each digit. -/
theorem decodeSliceRaw_of_digits (bytes : List UInt8) (index : Nat) {src : List Char}
    (digits : src.map decodeLut = (bytes.flatMap halves).map some) :
    decodeSliceRaw index src = .ok bytes := by
  induction bytes generalizing index src with
  | nil =>
    rw [List.flatMap_nil, List.map_nil, List.map_eq_nil_iff] at digits
    rw [digits]
    rfl
  | cons byte rest ih =>
    simp only [List.flatMap_cons, halves, List.map_cons, List.cons_append, List.nil_append] at digits
    -- the first two characters are the digits of the byte
    rcases src with _ | ⟨c0, _ | ⟨c1, tail⟩⟩
    · simp at digits
    · simp at digits
    simp only [List.map_cons, List.cons.injEq] at digits
    obtain ⟨first, second, later⟩ := digits
    rw [decodeSliceRaw, first, second]
    dsimp only
    rw [ih (index + 2) later, byte_halves, UInt8.ofNat_toNat]
    rfl

theorem length_flatMap_halves (bytes : List UInt8) : (bytes.flatMap halves).length = 2 * bytes.length := by
  simp [List.length_flatMap, halves, mul_comm]

theorem length_of_digits {bytes : List UInt8} {src : List Char}
    (digits : src.map decodeLut = (bytes.flatMap halves).map some) : src.length = 2 * bytes.length := by
  have lengths := congrArg List.length digits
  rwa [List.length_map, List.length_map, length_flatMap_halves] at lengths

theorem decode_of_digits {bytes : List UInt8} {src : List Char}
    (digits : src.map decodeLut = (bytes.flatMap halves).map some) : decode src = .ok bytes := by
  rw [decode, if_neg (by rw [length_of_digits digits]; omega), decodeSliceRaw_of_digits bytes 0 digits]

theorem map_decodeLut_encodeLower (bytes : List UInt8) :
    (encodeLower bytes).map decodeLut = (bytes.flatMap halves).map some := by
  induction bytes with
  | nil => rfl
  | cons byte rest ih =>
    rw [encodeLower, List.flatMap_cons, List.map_append, ← encodeLower, ih, List.flatMap_cons, List.map_append,
      encodeByte, halves, List.map_cons, List.map_cons, List.map_nil, List.map_cons, List.map_cons, List.map_nil,
      decodeLut_lower (high_lt byte), decodeLut_lower (low_lt byte)]

theorem length_of_decodeSliceRaw {index : Nat} {src : List Char} {bytes : List UInt8}
    (decoded : decodeSliceRaw index src = .ok bytes) :
    src.length = 2 * bytes.length ∨ src.length = 2 * bytes.length + 1 := by
  fun_induction decodeSliceRaw index src generalizing bytes with
  | case1 index c0 c1 rest r0 r1 first second ih =>
    rw [Except.map_eq_ok] at decoded
    obtain ⟨later, found, rfl⟩ := decoded
    have := ih found
    simp only [List.length_cons]
    omega
  | case2 => cases decoded
  | case3 src index short =>
    cases decoded
    rcases src with _ | ⟨c0, _ | ⟨c1, rest⟩⟩
    · simp
    · simp
    · exact absurd rfl (short c0 c1 rest)

theorem length_of_decode {src : List Char} {bytes : List UInt8} (decoded : decode src = .ok bytes) :
    src.length = 2 * bytes.length := by
  rw [decode] at decoded
  split at decoded
  · cases decoded
  · next even =>
    split at decoded
    · next found =>
      cases decoded
      have := length_of_decodeSliceRaw found
      omega
    · cases decoded

theorem getD_mem_lowerDigits {digit : Nat} (small : digit < 16) : LOWER_DIGITS.getD digit '0' ∈ LOWER_DIGITS := by
  rw [List.getD_eq_getElem _ _ (by simpa [LOWER_DIGITS] using small)]
  exact List.getElem_mem _

theorem mem_lowerDigits_of_mem_encodeLower {c : Char} {bytes : List UInt8} (member : c ∈ encodeLower bytes) :
    c ∈ LOWER_DIGITS := by
  obtain ⟨byte, _, written⟩ := List.mem_flatMap.mp member
  simp only [encodeByte, List.mem_cons, List.not_mem_nil, or_false] at written
  rcases written with rfl | rfl
  · exact getD_mem_lowerDigits (high_lt byte)
  · exact getD_mem_lowerDigits (low_lt byte)

theorem decode_encodeLower (bytes : List UInt8) : decode (encodeLower bytes) = .ok bytes :=
  decode_of_digits (map_decodeLut_encodeLower bytes)

def codec : Codec := ⟨encodeLower, decode⟩

theorem codec_roundTrip (bytes : List UInt8) : codec.decode (codec.encodeLower bytes) = .ok bytes :=
  decode_encodeLower bytes

theorem codec_lowerDigits (bytes : List UInt8) : ∀ c ∈ codec.encodeLower bytes, c ∈ LOWER_DIGITS :=
  fun _ member => mem_lowerDigits_of_mem_encodeLower member

theorem codec_halves (src : List Char) (bytes : List UInt8) (decoded : codec.decode src = .ok bytes) :
    src.length = 2 * bytes.length :=
  length_of_decode decoded

end Sample

end Base16
