import Mathlib

/-!
Byte formats that can be read back. A `Codec` carries the law that decoding the
encoding of a value, followed by any further bytes, returns the value and leaves those
bytes; every encoding is therefore injective. Codecs compose: single bytes, pairs,
tagged sums, options, lists (each element behind a continuation byte), and any type
embedded into one of them.
-/

structure Codec (α : Type) where
  encode : α → List UInt8
  decode : List UInt8 → Option (α × List UInt8)
  decode_encode : ∀ value rest, decode (encode value ++ rest) = some (value, rest)

namespace Codec

variable {α β : Type}

theorem encode_injective (codec : Codec α) : Function.Injective codec.encode := by
  intro value other same
  have decoded := codec.decode_encode value []
  rw [same, codec.decode_encode] at decoded
  exact (Prod.mk.inj (Option.some.inj decoded)).1.symm

def byte : Codec UInt8 where
  encode value := [value]
  decode
    | value :: rest => some (value, rest)
    | [] => none
  decode_encode _ _ := rfl

def pair (first : Codec α) (second : Codec β) : Codec (α × β) where
  encode value := first.encode value.1 ++ second.encode value.2
  decode bytes := (first.decode bytes).bind fun (a, rest) =>
    (second.decode rest).map fun (b, rest) => ((a, b), rest)
  decode_encode := by
    rintro ⟨a, b⟩ rest
    simp [List.append_assoc, first.decode_encode, second.decode_encode]

/-- A tag byte, `0` on the left and `1` on the right, then the value. -/
def sum (left : Codec α) (right : Codec β) : Codec (α ⊕ β) where
  encode
    | .inl a => 0 :: left.encode a
    | .inr b => 1 :: right.encode b
  decode
    | 0 :: rest => (left.decode rest).map fun (a, rest) => (.inl a, rest)
    | 1 :: rest => (right.decode rest).map fun (b, rest) => (.inr b, rest)
    | _ => none
  decode_encode := by
    rintro (a | b) rest
    · simp [left.decode_encode]
    · simp [right.decode_encode]

/-- A tag byte, `0` for nothing and `1` before a value. -/
def option (item : Codec α) : Codec (Option α) where
  encode
    | none => [0]
    | some a => 1 :: item.encode a
  decode
    | 0 :: rest => some (none, rest)
    | 1 :: rest => (item.decode rest).map fun (a, rest) => (some a, rest)
    | _ => none
  decode_encode := by
    rintro (_ | a) rest
    · rfl
    · simp [item.decode_encode]

section List

variable (item : Codec α)

def encodeList : List α → List UInt8
  | [] => [0]
  | a :: rest => 1 :: item.encode a ++ encodeList rest

/-- Reads elements while a `1` precedes them; each element takes a byte at least, so
one step for each byte of the input is enough. -/
def decodeList : Nat → List UInt8 → Option (List α × List UInt8)
  | _, 0 :: rest => some ([], rest)
  | fuel + 1, 1 :: bytes => (item.decode bytes).bind fun (a, bytes) =>
    (decodeList fuel bytes).map fun (rest, bytes) => (a :: rest, bytes)
  | _, _ => none

theorem length_lt_encodeList (values : List α) (rest : List UInt8) :
    values.length < (encodeList item values ++ rest).length := by
  induction values with
  | nil => simp [encodeList]
  | cons a values ih =>
    simp only [encodeList, List.cons_append, List.append_assoc, List.length_cons, List.length_append] at ih ⊢
    omega

theorem decodeList_encodeList (values : List α) (rest : List UInt8) (fuel : Nat)
    (enough : values.length ≤ fuel) :
    decodeList item fuel (encodeList item values ++ rest) = some (values, rest) := by
  induction values generalizing fuel with
  | nil => cases fuel <;> rfl
  | cons a values ih =>
    obtain ⟨fuel, rfl⟩ : ∃ less, fuel = less + 1 :=
      Nat.exists_eq_add_one.mpr (by simp at enough; omega)
    simp only [encodeList, List.cons_append, List.append_assoc, decodeList, item.decode_encode,
      Option.bind_some]
    rw [ih fuel (by simp at enough; omega)]
    rfl

end List

def list (item : Codec α) : Codec (List α) where
  encode := encodeList item
  decode bytes := decodeList item bytes.length bytes
  decode_encode values rest :=
    decodeList_encodeList item values rest _ (Nat.le_of_lt (length_lt_encodeList item values rest))

/-- A codec for a type embedded into one that has a codec. -/
def embed (codec : Codec β) (into : α → β) (back : β → Option α) (back_into : ∀ a, back (into a) = some a) :
    Codec α where
  encode a := codec.encode (into a)
  decode bytes := (codec.decode bytes).bind fun (b, rest) => (back b).map fun a => (a, rest)
  decode_encode a rest := by simp [codec.decode_encode, back_into]

end Codec
