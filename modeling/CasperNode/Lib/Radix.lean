import Mathlib

/-!
Unsigned integers written in a radix up to ten, as Rust's `core` writes them (`Display`, and
`{:0w}` for a zero-padded width) and reads them back (`from_str_radix` of an unsigned type):
digits most significant first, at most one leading `+`, and checked arithmetic below the bound
of the type. Characters are Unicode scalar values, and a string is the list of its characters.
-/

namespace Radix

/-- `char::to_digit` for a radix up to ten: the code point less that of `'0'`, if it is below
the radix. -/
def toDigit (radix : Nat) (c : Char) : Option Nat :=
  if 48 ≤ c.toNat ∧ c.toNat - 48 < radix then some (c.toNat - 48) else none

/-- The character of a digit below ten. -/
def digitChar (digit : Nat) : Char := Char.ofNat (48 + digit)

/-- The digits `Display` writes, most significant first: no leading zero, and one `0` for
zero. -/
def digits (radix n : Nat) : List Nat :=
  if n = 0 then [0] else (Nat.digits radix n).reverse

def toChars (radix n : Nat) : List Char := (digits radix n).map digitChar

/-- `{:0w}`: zeros on the left up to the width. -/
def padZeros (width : Nat) (text : List Char) : List Char :=
  List.replicate (width - text.length) '0' ++ text

inductive IntErrorKind where
  | empty
  | invalidDigit
  | posOverflow
  deriving DecidableEq, Repr

/-- The digit loop of `from_str_radix` for a type whose values are below `bound`. It computes
the product before it reads the digit, so a bad digit is reported before an overflow of the
product. -/
def accumulate (radix bound : Nat) : Nat → List Char → Except IntErrorKind Nat
  | result, [] => .ok result
  | result, c :: rest =>
    match toDigit radix c with
    | none => .error .invalidDigit
    | some x =>
      if result * radix < bound ∧ result * radix + x < bound then
        accumulate radix bound (result * radix + x) rest
      else .error .posOverflow

/-- `from_str_radix` of an unsigned type: a sign alone is an invalid digit, a `+` is dropped, and
a `-` is read as a digit, which it is not. -/
def fromStrRadix (radix bound : Nat) : List Char → Except IntErrorKind Nat
  | [] => .error .empty
  | c :: rest =>
    if (c = '+' ∨ c = '-') ∧ rest = [] then .error .invalidDigit
    else if c = '+' then accumulate radix bound 0 rest
    else accumulate radix bound 0 (c :: rest)

/-- The value of digits read most significant first from `acc`. -/
def value (radix acc : Nat) (ds : List Nat) : Nat := ds.foldl (fun acc d => acc * radix + d) acc

section Value

variable {radix : Nat}

@[simp] theorem value_nil (acc : Nat) : value radix acc [] = acc := rfl

@[simp] theorem value_cons (acc d : Nat) (ds : List Nat) :
    value radix acc (d :: ds) = value radix (acc * radix + d) ds := rfl

theorem value_append (acc : Nat) (ds ds' : List Nat) :
    value radix acc (ds ++ ds') = value radix (value radix acc ds) ds' := by
  simp [value, List.foldl_append]

theorem value_replicate_zero (count : Nat) : value radix 0 (List.replicate count 0) = 0 := by
  induction count with
  | zero => rfl
  | succ count ih => simpa [List.replicate_succ] using ih

theorem le_value (positive : 0 < radix) (acc : Nat) (ds : List Nat) : acc ≤ value radix acc ds := by
  induction ds generalizing acc with
  | nil => exact le_rfl
  | cons d ds ih =>
    have grown : acc ≤ acc * radix + d := le_add_right (Nat.le_mul_of_pos_right acc positive)
    exact grown.trans (ih _)

theorem value_reverse (ds : List Nat) : value radix 0 ds.reverse = Nat.ofDigits radix ds := by
  unfold value
  rw [List.foldl_reverse]
  induction ds with
  | nil => rfl
  | cons d ds ih =>
    rw [List.foldr_cons, ih, Nat.ofDigits_cons]
    ring

theorem value_digits (n : Nat) : value radix 0 (digits radix n) = n := by
  unfold digits
  split
  · next zero => simp [zero]
  · rw [value_reverse, Nat.ofDigits_digits]

theorem digits_lt (base : 2 ≤ radix) (n : Nat) : ∀ d ∈ digits radix n, d < radix := by
  intro d member
  unfold digits at member
  split at member
  · rw [List.mem_singleton.mp member]
    omega
  · exact Nat.digits_lt_base base (List.mem_reverse.mp member)

theorem digits_ne_nil (n : Nat) : digits radix n ≠ [] := by
  unfold digits
  split
  · exact List.cons_ne_nil _ _
  · next positive => simpa [Nat.digits_ne_nil_iff_ne_zero] using positive

end Value

theorem toNat_digitChar {digit : Nat} (small : digit < 10) : (digitChar digit).toNat = 48 + digit := by
  rw [digitChar, Char.toNat_ofNat]
  simp only [Nat.isValidChar]
  split_ifs with valid
  · rfl
  · omega

theorem toDigit_digitChar {radix digit : Nat} (within : radix ≤ 10) (small : digit < radix) :
    toDigit radix (digitChar digit) = some digit := by
  rw [toDigit, toNat_digitChar (by omega)]
  simp [small]

theorem digitChar_zero : digitChar 0 = '0' := rfl

/-- Digits below the radix, read from `acc`, give their value when it stays below the bound:
every partial value is at most the last one. -/
theorem accumulate_map_digitChar {radix bound : Nat} (within : radix ≤ 10) (ds : List Nat) (acc : Nat)
    (small : ∀ d ∈ ds, d < radix) (bounded : value radix acc ds < bound) :
    accumulate radix bound acc (ds.map digitChar) = .ok (value radix acc ds) := by
  induction ds generalizing acc with
  | nil => rfl
  | cons d ds ih =>
    have below : d < radix := small d (List.mem_cons_self ..)
    have rest : value radix (acc * radix + d) ds < bound := bounded
    have step : acc * radix + d ≤ value radix (acc * radix + d) ds := le_value (by omega) _ _
    simp only [List.map_cons, accumulate, toDigit_digitChar within below, value_cons]
    rw [if_pos ⟨by omega, by omega⟩]
    exact ih _ (fun d' member => small d' (List.mem_cons_of_mem d member)) rest

theorem fromStrRadix_map_digitChar {radix bound : Nat} (within : radix ≤ 10) {ds : List Nat}
    (nonempty : ds ≠ []) (small : ∀ d ∈ ds, d < radix) (bounded : value radix 0 ds < bound) :
    fromStrRadix radix bound (ds.map digitChar) = .ok (value radix 0 ds) := by
  obtain ⟨d, rest, rfl⟩ := List.exists_cons_of_ne_nil nonempty
  have code := toNat_digitChar (show d < 10 by have := small d (List.mem_cons_self ..); omega)
  -- a digit is neither sign
  have unsigned : digitChar d ≠ '+' ∧ digitChar d ≠ '-' := by
    constructor <;> intro same <;> rw [same] at code <;> simp at code <;> omega
  rw [List.map_cons, fromStrRadix, if_neg (by tauto), if_neg unsigned.1, ← List.map_cons]
  exact accumulate_map_digitChar within _ 0 small bounded

/-- What `{:0w}` writes of a value below the bound reads back as that value, whatever the
width. -/
theorem fromStrRadix_padZeros_toChars {radix bound : Nat} (base : 2 ≤ radix) (within : radix ≤ 10)
    (width : Nat) {n : Nat} (bounded : n < bound) :
    fromStrRadix radix bound (padZeros width (toChars radix n)) = .ok n := by
  have padded : padZeros width (toChars radix n) =
      (List.replicate (width - (toChars radix n).length) 0 ++ digits radix n).map digitChar := by
    simp [padZeros, toChars, List.map_replicate, digitChar_zero]
  have worth : value radix 0 (List.replicate (width - (toChars radix n).length) 0 ++ digits radix n) = n := by
    rw [value_append, value_replicate_zero, value_digits]
  have small : ∀ d ∈ List.replicate (width - (toChars radix n).length) 0 ++ digits radix n, d < radix := by
    intro d member
    rcases List.mem_append.mp member with zero | digit
    · rw [(List.mem_replicate.mp zero).2]
      omega
    · exact digits_lt base n d digit
  have read := fromStrRadix_map_digitChar within (by simp [digits_ne_nil]) small (worth.symm ▸ bounded)
  rw [padded]
  rwa [worth] at read

theorem fromStrRadix_toChars {radix bound : Nat} (base : 2 ≤ radix) (within : radix ≤ 10) {n : Nat}
    (bounded : n < bound) : fromStrRadix radix bound (toChars radix n) = .ok n := by
  simpa [padZeros] using fromStrRadix_padZeros_toChars base within 0 bounded

end Radix
