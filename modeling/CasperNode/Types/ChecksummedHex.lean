import Mathlib
import CasperNode.Lib.Base16
import CasperNode.Lib.ExceptBind

/-!
`checksummed_hex` (`types/src/checksummed_hex.rs`): hex whose letters carry a checksum in their
case, after EIP-55, with the bits of the Blake2b hash of the bytes in place of Keccak's nibbles.
Blake2b is the parameter `blake2b`, and the `base16` crate the parameter `base16`. `decode` skips
the check on a string whose letters are of one case, for backward compatibility, and on one of
more than `SMALL_BYTES_COUNT` bytes.
-/

namespace CasperTypes

namespace ChecksummedHex

def SMALL_BYTES_COUNT : Nat := 75

def HEX_CHARS : List Char :=
  ['0', '1', '2', '3', '4', '5', '6', '7', '8', '9', 'a', 'b', 'c', 'd', 'e', 'f', 'A', 'B', 'C', 'D',
    'E', 'F']

/-- `bytes_to_nibbles`: the high half of each byte, then its low half. -/
def bytesToNibbles (input : List UInt8) : List UInt8 :=
  input.flatMap fun byte => ([4, 0] : List UInt8).map fun offset => (byte >>> offset) &&& 0x0f

/-- The bit at `index` of `bytes_to_bits_cycle`, which repeats the bytes without end, each from
its lowest bit; `none` when there are no bytes, so that the cycle is empty. -/
def bitsCycle (bytes : List UInt8) (index : Nat) : Option Bool :=
  if bytes = [] then none
  else some ((bytes.getD (index / 8 % bytes.length) 0 >>> (index % 8).toUInt8) &&& 0x01 == 0x01)

/-- The `map` of `encode_iter` from a nibble on, with `used` bits of the cycle taken. A nibble of
ten or more takes the next bit, `true` once the cycle has none, and a set bit moves it six places
on in `HEX_CHARS`, to its upper-case letter. -/
def encodeFrom (hashBits : Nat → Option Bool) : Nat → List UInt8 → List Char
  | _, [] => []
  | used, nibble :: rest =>
    if nibble ≥ 10 then
      let upper := (hashBits used).getD true
      HEX_CHARS.getD (if upper then nibble.toNat + 6 else nibble.toNat) '0' ::
        encodeFrom hashBits (used + 1) rest
    else HEX_CHARS.getD nibble.toNat '0' :: encodeFrom hashBits used rest

/-- `encode_iter`. -/
def encodeIter (blake2b : List UInt8 → List UInt8) (input : List UInt8) : List Char :=
  encodeFrom (bitsCycle (blake2b input)) 0 (bytesToNibbles input)

def isLower (c : Char) : Bool := 'a' ≤ c && c ≤ 'f'

def isUpper (c : Char) : Bool := 'A' ≤ c && c ≤ 'F'

/-- `string_is_same_case`: the hex letters are all in lower case or all in upper case, which
holds when there is none. -/
def stringIsSameCase (s : List Char) : Bool :=
  match s.filter fun c => isLower c || isUpper c with
  | [] => true
  | first :: rest => rest.all fun c => isUpper c == isUpper first

/-- The `try_for_each` of `decode` over the zip of the expected characters with the input, from
`index`: the first index where they differ, with the character expected there. -/
def firstMismatch : Nat → List Char → List Char → Option (Nat × Char)
  | index, expected :: expectedRest, actual :: actualRest =>
    if expected = actual then firstMismatch (index + 1) expectedRest actualRest else some (index, expected)
  | _, _, _ => none

def decode (base16 : Base16.Codec) (blake2b : List UInt8 → List UInt8) (input : List Char) :
    Except Base16.DecodeError (List UInt8) := do
  let bytes ← base16.decode input
  if bytes.length > SMALL_BYTES_COUNT || stringIsSameCase input then .ok bytes
  else
    match firstMismatch 0 (encodeIter blake2b bytes) input with
    | some (index, byte) => .error (.invalidByte index byte)
    | none => .ok bytes

theorem length_encodeFrom (hashBits : Nat → Option Bool) (used : Nat) (nibbles : List UInt8) :
    (encodeFrom hashBits used nibbles).length = nibbles.length := by
  induction nibbles generalizing used with
  | nil => rfl
  | cons nibble rest ih =>
    unfold encodeFrom
    split <;> simp [ih]

theorem length_bytesToNibbles (input : List UInt8) : (bytesToNibbles input).length = 2 * input.length := by
  induction input with
  | nil => rfl
  | cons byte rest ih =>
    simp only [bytesToNibbles, List.flatMap_cons, List.length_append, List.length_map, List.length_cons,
      List.length_nil] at ih ⊢
    omega

theorem length_encodeIter (blake2b : List UInt8 → List UInt8) (input : List UInt8) :
    (encodeIter blake2b input).length = 2 * input.length := by
  rw [encodeIter, length_encodeFrom, length_bytesToNibbles]

theorem firstMismatch_eq_none_iff {index : Nat} {expected actual : List Char}
    (lengths : expected.length = actual.length) :
    firstMismatch index expected actual = none ↔ expected = actual := by
  induction expected generalizing index actual with
  | nil =>
    rw [List.eq_nil_of_length_eq_zero lengths.symm]
    simp [firstMismatch]
  | cons c rest ih =>
    obtain ⟨c', rest', rfl⟩ := List.exists_cons_of_length_eq_add_one lengths.symm
    simp only [List.length_cons, Nat.add_right_cancel_iff] at lengths
    rw [firstMismatch]
    split
    · next same => rw [ih lengths, same, List.cons.injEq]; simp
    · next differ => simp [differ]

theorem stringIsSameCase_of_lower {s : List Char} (lower : ∀ c ∈ s, isUpper c = false) :
    stringIsSameCase s = true := by
  unfold stringIsSameCase
  split
  · rfl
  · next first rest letters =>
    have kept : ∀ c ∈ first :: rest, isUpper c = false := fun c member =>
      lower c (List.mem_of_mem_filter (letters ▸ member))
    simp only [List.all_eq_true, beq_iff_eq]
    intro c member
    rw [kept c (List.mem_cons_of_mem _ member), kept first (List.mem_cons_self ..)]

theorem decode_of_unchecked (base16 : Base16.Codec) (blake2b : List UInt8 → List UInt8) {input : List Char}
    {bytes : List UInt8} (hex : base16.decode input = .ok bytes)
    (unchecked : SMALL_BYTES_COUNT < bytes.length ∨ stringIsSameCase input = true) :
    decode base16 blake2b input = .ok bytes := by
  rw [decode, hex, Except.ok_bind, if_pos (by simpa using unchecked)]

theorem decode_of_encodeIter (base16 : Base16.Codec) (blake2b : List UInt8 → List UInt8) {input : List Char}
    {bytes : List UInt8} (hex : base16.decode input = .ok bytes) (encoded : input = encodeIter blake2b bytes) :
    decode base16 blake2b input = .ok bytes := by
  have lengths : (encodeIter blake2b bytes).length = input.length := by rw [encoded]
  rw [decode, hex, Except.ok_bind]
  split
  · rfl
  · rw [(firstMismatch_eq_none_iff lengths).mpr encoded.symm]

/-- `decode` returns bytes exactly when `base16` decodes the string to them and the string may
stand for them: they are more than `SMALL_BYTES_COUNT`, or its letters are of one case, or it is
their checksummed encoding. Of the crate it needs only that a string it decodes has two
characters for each byte. -/
theorem decode_eq_ok_iff (base16 : Base16.Codec)
    (halves : ∀ src bytes, base16.decode src = .ok bytes → src.length = 2 * bytes.length)
    (blake2b : List UInt8 → List UInt8) (input : List Char) (bytes : List UInt8) :
    decode base16 blake2b input = .ok bytes ↔
      base16.decode input = .ok bytes ∧
        (SMALL_BYTES_COUNT < bytes.length ∨ stringIsSameCase input = true ∨ input = encodeIter blake2b bytes) := by
  constructor
  · intro decoded
    rw [decode, Except.bind_eq_ok] at decoded
    obtain ⟨decoded, hex, checked⟩ := decoded
    have lengths : (encodeIter blake2b decoded).length = input.length := by
      rw [length_encodeIter, halves input decoded hex]
    split at checked
    · next unchecked =>
      cases checked
      simp only [Bool.or_eq_true, decide_eq_true_eq] at unchecked
      exact ⟨hex, unchecked.elim .inl (.inr ∘ .inl)⟩
    · split at checked
      · cases checked
      · next agrees =>
        cases checked
        exact ⟨hex, .inr (.inr ((firstMismatch_eq_none_iff lengths).mp agrees).symm)⟩
  · rintro ⟨hex, long | sameCase | encoded⟩
    · exact decode_of_unchecked base16 blake2b hex (.inl long)
    · exact decode_of_unchecked base16 blake2b hex (.inr sameCase)
    · exact decode_of_encodeIter base16 blake2b hex encoded

/-- `Ff` is of mixed case; it is the checksummed encoding of `255` under a hash whose first bit is
set and second is not. -/
theorem decode_eq_ok_iff_on_mixed_case :
    (∀ src bytes, Base16.Sample.codec.decode src = .ok bytes → src.length = 2 * bytes.length) ∧
    (decode Base16.Sample.codec (fun _ => [1]) ['F', 'f'] = .ok [255] ↔
      Base16.Sample.codec.decode ['F', 'f'] = .ok [255] ∧
        (SMALL_BYTES_COUNT < [255].length ∨ stringIsSameCase ['F', 'f'] = true ∨
          ['F', 'f'] = encodeIter (fun _ => [1]) [255])) :=
  ⟨Base16.Sample.codec_halves, decode_eq_ok_iff _ Base16.Sample.codec_halves (fun _ => [1]) _ _⟩

example : decode Base16.Sample.codec (fun _ => [1]) ['F', 'f'] = .ok [255] := by decide

theorem decode_encodeLower (base16 : Base16.Codec)
    (roundTrip : ∀ bytes, base16.decode (base16.encodeLower bytes) = .ok bytes)
    (lowerDigits : ∀ bytes, ∀ c ∈ base16.encodeLower bytes, c ∈ Base16.LOWER_DIGITS)
    (blake2b : List UInt8 → List UInt8) (bytes : List UInt8) :
    decode base16 blake2b (base16.encodeLower bytes) = .ok bytes := by
  have digits : ∀ c ∈ Base16.LOWER_DIGITS, isUpper c = false := by simp [Base16.LOWER_DIGITS, isUpper]
  exact decode_of_unchecked base16 blake2b (roundTrip bytes)
    (.inr (stringIsSameCase_of_lower fun c member => digits c (lowerDigits bytes c member)))

end ChecksummedHex

end CasperTypes
