import Mathlib
import CasperNode.Types.Bytesrepr

/-!
`CLType` of `casper_types` (`types/src/cl_type.rs`): the type tag of every
`CLValue`, with its derived `Debug` text, which error messages quote, and its byte format.

`append_bytes` writes a tag byte and then the children; `from_bytes` reads it back by
recursive descent, refusing to go deeper than `CL_TYPE_RECURSION_DEPTH`. It reads back
exactly the types of height at most that depth, and anything it accepts is such a type
followed by the rest of the input.
-/
namespace CasperTypes

inductive CLType where
  | bool
  | i32
  | i64
  | u8
  | u32
  | u64
  | u128
  | u256
  | u512
  | unit
  | string
  | key
  | uRef
  | publicKey
  | option (inner : CLType)
  | list (inner : CLType)
  | byteArray (len : UInt32)
  | result (ok err : CLType)
  | map (key value : CLType)
  | tuple1 (t0 : CLType)
  | tuple2 (t0 t1 : CLType)
  | tuple3 (t0 t1 t2 : CLType)
  | any
  deriving DecidableEq, Repr

/-- The derived `Debug` formatting of a `CLType`. -/
def CLType.debugText : CLType → String
  | .bool => "Bool"
  | .i32 => "I32"
  | .i64 => "I64"
  | .u8 => "U8"
  | .u32 => "U32"
  | .u64 => "U64"
  | .u128 => "U128"
  | .u256 => "U256"
  | .u512 => "U512"
  | .unit => "Unit"
  | .string => "String"
  | .key => "Key"
  | .uRef => "URef"
  | .publicKey => "PublicKey"
  | .option t => "Option(" ++ t.debugText ++ ")"
  | .list t => "List(" ++ t.debugText ++ ")"
  | .byteArray n => "ByteArray(" ++ toString n ++ ")"
  | .result ok err => "Result \x7b ok: " ++ ok.debugText ++ ", err: " ++ err.debugText ++ " \x7d"
  | .map k v => "Map \x7b key: " ++ k.debugText ++ ", value: " ++ v.debugText ++ " \x7d"
  | .tuple1 a => "Tuple1([" ++ a.debugText ++ "])"
  | .tuple2 a b => "Tuple2([" ++ a.debugText ++ ", " ++ b.debugText ++ "])"
  | .tuple3 a b c => "Tuple3([" ++ a.debugText ++ ", " ++ b.debugText ++ ", " ++ c.debugText ++ "])"
  | .any => "Any"

/-- `named_key_type`: the type of a `(String, Key)` pair added to named keys. -/
def namedKeyType : CLType := .tuple2 .string .key

section Bytes

open Bytesrepr

/-- `CL_TYPE_RECURSION_DEPTH`, a `u8` in the source; the depth never passes it. -/
def CL_TYPE_RECURSION_DEPTH : Nat := 50

/-- Constructors on the longest path from the root to a leaf. -/
def CLType.height : CLType → Nat
  | .option t | .list t => t.height + 1
  | .result ok err => max ok.height err.height + 1
  | .map keyType valueType => max keyType.height valueType.height + 1
  | .tuple1 t0 => t0.height + 1
  | .tuple2 t0 t1 => max t0.height t1.height + 1
  | .tuple3 t0 t1 t2 => max t0.height (max t1.height t2.height) + 1
  | _ => 1

/-- `serialize_cl_tuple_type`, given the bytes of each element. -/
def serializeClTupleType (tag : UInt8) (clTypeArray : List (List UInt8)) : List UInt8 :=
  tag :: clTypeArray.flatten

/-- `serialized_length_of_cl_tuple_type`, given the length of each element. -/
def serializedLengthOfClTupleType (clTypeArray : List Nat) : Nat := clTypeArray.sum

/-- The bytes `append_bytes` pushes: the tag `CL_TYPE_TAG_*`, then the children. -/
def CLType.appendBytes : CLType → List UInt8
  | .bool => [0]
  | .i32 => [1]
  | .i64 => [2]
  | .u8 => [3]
  | .u32 => [4]
  | .u64 => [5]
  | .u128 => [6]
  | .u256 => [7]
  | .u512 => [8]
  | .unit => [9]
  | .string => [10]
  | .key => [11]
  | .uRef => [12]
  | .publicKey => [22]
  | .option t => 13 :: t.appendBytes
  | .list t => 14 :: t.appendBytes
  | .byteArray len => 15 :: u32ToBytes len
  | .result ok err => 16 :: (ok.appendBytes ++ err.appendBytes)
  | .map keyType valueType => 17 :: (keyType.appendBytes ++ valueType.appendBytes)
  | .tuple1 t0 => serializeClTupleType 18 [t0.appendBytes]
  | .tuple2 t0 t1 => serializeClTupleType 19 [t0.appendBytes, t1.appendBytes]
  | .tuple3 t0 t1 t2 => serializeClTupleType 20 [t0.appendBytes, t1.appendBytes, t2.appendBytes]
  | .any => [21]

/-- `serialized_length`: the tag byte and the lengths of the children. -/
def CLType.serializedLength : CLType → Nat
  | .option t | .list t => 1 + t.serializedLength
  | .byteArray _ => 1 + U32_SERIALIZED_LENGTH
  | .result ok err => 1 + (ok.serializedLength + err.serializedLength)
  | .map keyType valueType => 1 + (keyType.serializedLength + valueType.serializedLength)
  | .tuple1 t0 => 1 + serializedLengthOfClTupleType [t0.serializedLength]
  | .tuple2 t0 t1 => 1 + serializedLengthOfClTupleType [t0.serializedLength, t1.serializedLength]
  | .tuple3 t0 t1 t2 =>
    1 + serializedLengthOfClTupleType [t0.serializedLength, t1.serializedLength, t2.serializedLength]
  | _ => 1 + 0

/-- `parse_cl_tuple_types`: `count` types one after the other, each read by the decoder one
level down, which is passed in. The result has exactly `count` of them, so the
`pop_front().unwrap()` of the callers never fails. -/
def parseClTupleTypes (depthLimitedFromBytes : List UInt8 → Except Error (CLType × List UInt8)) :
    (count : Nat) → List UInt8 → Except Error (List.Vector CLType count × List UInt8)
  | 0, bytes => .ok (List.Vector.nil, bytes)
  | count + 1, bytes => do
    let (clType, remainder) ← depthLimitedFromBytes bytes
    let (clTypes, remainder) ← parseClTupleTypes depthLimitedFromBytes count remainder
    .ok (List.Vector.cons clType clTypes, remainder)

/-- `depth_limited_from_bytes(depth, ·)` with `remaining = CL_TYPE_RECURSION_DEPTH - depth`
levels left: the check `depth >= CL_TYPE_RECURSION_DEPTH` is `remaining = 0`, and each
child is read with one level fewer. -/
def depthLimitedFromBytes : Nat → List UInt8 → Except Error (CLType × List UInt8)
  | 0, _ => .error .exceededRecursionDepth
  | remaining + 1, bytes => do
    let (tag, remainder) ← u8FromBytes bytes
    match tag with
    | 0 => .ok (.bool, remainder)
    | 1 => .ok (.i32, remainder)
    | 2 => .ok (.i64, remainder)
    | 3 => .ok (.u8, remainder)
    | 4 => .ok (.u32, remainder)
    | 5 => .ok (.u64, remainder)
    | 6 => .ok (.u128, remainder)
    | 7 => .ok (.u256, remainder)
    | 8 => .ok (.u512, remainder)
    | 9 => .ok (.unit, remainder)
    | 10 => .ok (.string, remainder)
    | 11 => .ok (.key, remainder)
    | 12 => .ok (.uRef, remainder)
    | 22 => .ok (.publicKey, remainder)
    | 13 => do
      let (innerType, remainder) ← depthLimitedFromBytes remaining remainder
      .ok (.option innerType, remainder)
    | 14 => do
      let (innerType, remainder) ← depthLimitedFromBytes remaining remainder
      .ok (.list innerType, remainder)
    | 15 => do
      let (len, remainder) ← u32FromBytes remainder
      .ok (.byteArray len, remainder)
    | 16 => do
      let (okType, remainder) ← depthLimitedFromBytes remaining remainder
      let (errType, remainder) ← depthLimitedFromBytes remaining remainder
      .ok (.result okType errType, remainder)
    | 17 => do
      let (keyType, remainder) ← depthLimitedFromBytes remaining remainder
      let (valueType, remainder) ← depthLimitedFromBytes remaining remainder
      .ok (.map keyType valueType, remainder)
    | 18 => do
      let (innerTypes, remainder) ← parseClTupleTypes (depthLimitedFromBytes remaining) 1 remainder
      .ok (.tuple1 (innerTypes.get 0), remainder)
    | 19 => do
      let (innerTypes, remainder) ← parseClTupleTypes (depthLimitedFromBytes remaining) 2 remainder
      .ok (.tuple2 (innerTypes.get 0) (innerTypes.get 1), remainder)
    | 20 => do
      let (innerTypes, remainder) ← parseClTupleTypes (depthLimitedFromBytes remaining) 3 remainder
      .ok (.tuple3 (innerTypes.get 0) (innerTypes.get 1) (innerTypes.get 2), remainder)
    | 21 => .ok (.any, remainder)
    | _ => .error .formatting

/-- `FromBytes for CLType`: from depth 0. -/
def CLType.fromBytes (bytes : List UInt8) : Except Error (CLType × List UInt8) :=
  depthLimitedFromBytes CL_TYPE_RECURSION_DEPTH bytes

theorem CLType.height_pos (t : CLType) : 0 < t.height := by
  cases t <;> simp [CLType.height]

theorem CLType.serializedLength_eq_length (t : CLType) : t.serializedLength = t.appendBytes.length := by
  induction t with
  | option t ih | list t ih => simp [CLType.serializedLength, CLType.appendBytes, ih]; omega
  | byteArray len => simp [CLType.serializedLength, CLType.appendBytes, length_u32ToBytes]; omega
  | result ok err ihOk ihErr => simp [CLType.serializedLength, CLType.appendBytes, ihOk, ihErr]; omega
  | map keyType valueType ihKey ihValue =>
    simp [CLType.serializedLength, CLType.appendBytes, ihKey, ihValue]; omega
  | tuple1 t0 ih0 =>
    simp [CLType.serializedLength, CLType.appendBytes, serializeClTupleType, serializedLengthOfClTupleType, ih0]
    omega
  | tuple2 t0 t1 ih0 ih1 =>
    simp [CLType.serializedLength, CLType.appendBytes, serializeClTupleType, serializedLengthOfClTupleType, ih0, ih1]
    omega
  | tuple3 t0 t1 t2 ih0 ih1 ih2 =>
    simp [CLType.serializedLength, CLType.appendBytes, serializeClTupleType, serializedLengthOfClTupleType, ih0,
      ih1, ih2]
    omega
  | bool | i32 | i64 | u8 | u32 | u64 | u128 | u256 | u512 | unit | string | key | uRef | publicKey | any => rfl

/-- What the decoder gives on the encoding of `t`: `t` itself when it has the levels for it,
and the depth error otherwise. -/
def decodedWithin (remaining : Nat) (t : CLType) (rest : List UInt8) : Except Error (CLType × List UInt8) :=
  if t.height ≤ remaining then .ok (t, rest) else .error .exceededRecursionDepth

theorem depthLimitedFromBytes_zero (t : CLType) (bytes rest : List UInt8) :
    depthLimitedFromBytes 0 bytes = decodedWithin 0 t rest := by
  rw [decodedWithin, if_neg (by have := t.height_pos; omega)]
  rfl

/-- The tuple elements, one after the other, decode as each does alone: all of them when
each has the levels, the depth error at the first that has not. By induction on the
elements. -/
theorem parseClTupleTypes_flatten (decode : List UInt8 → Except Error (CLType × List UInt8)) (remaining : Nat)
    (ts : List CLType) (decodes : ∀ t ∈ ts, ∀ rest, decode (t.appendBytes ++ rest) = decodedWithin remaining t rest)
    (rest : List UInt8) :
    parseClTupleTypes decode ts.length ((ts.map CLType.appendBytes).flatten ++ rest) =
      if ∀ t ∈ ts, t.height ≤ remaining then .ok (⟨ts, rfl⟩, rest) else .error .exceededRecursionDepth := by
  induction ts generalizing rest with
  | nil => rfl
  | cons t ts ih =>
    have first := decodes t List.mem_cons_self
    have later := ih (fun other member => decodes other (List.mem_cons_of_mem t member))
    simp only [List.length_cons, List.map_cons, List.flatten_cons, List.append_assoc, parseClTupleTypes,
      first, decodedWithin, List.forall_mem_cons]
    by_cases fits : t.height ≤ remaining
    · simp only [fits, if_true, Except.ok_bind, later, true_and]
      split_ifs <;> rfl
    · simp [fits]

/-- The round trip with the depth: the encoding of `t` decodes to `t` exactly when `t` fits
in the levels left. By induction on `t`, one case per constructor. -/
theorem depthLimitedFromBytes_appendBytes (t : CLType) (remaining : Nat) (rest : List UInt8) :
    depthLimitedFromBytes remaining (t.appendBytes ++ rest) = decodedWithin remaining t rest := by
  induction t generalizing remaining rest with
  | option inner ih | list inner ih =>
    cases remaining with
    | zero => exact depthLimitedFromBytes_zero _ _ _
    | succ remaining =>
      simp only [depthLimitedFromBytes, CLType.appendBytes, List.cons_append, u8FromBytes_cons, Except.ok_bind, ih,
        decodedWithin, CLType.height]
      by_cases fits : inner.height ≤ remaining <;> simp [fits]
  | byteArray len =>
    cases remaining with
    | zero => exact depthLimitedFromBytes_zero _ _ _
    | succ remaining =>
      simp [depthLimitedFromBytes, CLType.appendBytes, u32FromBytes_u32ToBytes, decodedWithin, CLType.height]
  | result okType errType ihOk ihErr | map okType errType ihOk ihErr =>
    cases remaining with
    | zero => exact depthLimitedFromBytes_zero _ _ _
    | succ remaining =>
      simp only [depthLimitedFromBytes, CLType.appendBytes, List.cons_append, List.append_assoc, u8FromBytes_cons,
        Except.ok_bind, ihOk, decodedWithin, CLType.height]
      by_cases fitsOk : okType.height ≤ remaining
      · simp only [fitsOk, if_true, Except.ok_bind, ihErr, decodedWithin]
        by_cases fitsErr : errType.height ≤ remaining <;> simp [fitsOk, fitsErr]
      · simp [fitsOk]
  | tuple1 t0 ih0 =>
    cases remaining with
    | zero => exact depthLimitedFromBytes_zero _ _ _
    | succ remaining =>
      have parsed := parseClTupleTypes_flatten (depthLimitedFromBytes remaining) remaining [t0]
        (by simp [ih0]) rest
      simp only [List.map_cons, List.map_nil, List.flatten_cons, List.flatten_nil, List.append_nil,
        List.length_cons, List.length_nil, List.forall_mem_cons, List.not_mem_nil, false_implies,
        implies_true, and_true] at parsed
      simp only [depthLimitedFromBytes, CLType.appendBytes, serializeClTupleType, List.flatten_cons,
        List.flatten_nil, List.append_nil, List.cons_append, u8FromBytes_cons, Except.ok_bind, parsed, decodedWithin,
        CLType.height]
      by_cases fits : t0.height ≤ remaining
      · simp only [fits, if_true, Except.ok_bind, Nat.add_le_add_iff_right]
        rfl
      · simp [fits]
  | tuple2 t0 t1 ih0 ih1 =>
    cases remaining with
    | zero => exact depthLimitedFromBytes_zero _ _ _
    | succ remaining =>
      have parsed := parseClTupleTypes_flatten (depthLimitedFromBytes remaining) remaining [t0, t1]
        (by simp [ih0, ih1]) rest
      simp only [List.map_cons, List.map_nil, List.flatten_cons, List.flatten_nil, List.append_nil,
        List.append_assoc, List.length_cons, List.length_nil, Nat.reduceAdd, List.forall_mem_cons,
        List.not_mem_nil, false_implies, implies_true, and_true] at parsed
      simp only [depthLimitedFromBytes, CLType.appendBytes, serializeClTupleType, List.flatten_cons,
        List.flatten_nil, List.append_nil, List.append_assoc, List.cons_append, u8FromBytes_cons, Except.ok_bind, parsed,
        decodedWithin, CLType.height]
      by_cases fits : t0.height ≤ remaining ∧ t1.height ≤ remaining
      · simp only [fits, and_self, if_true, Except.ok_bind, Nat.add_le_add_iff_right, Nat.max_le]
        rfl
      · have tooDeep : ¬ max t0.height t1.height + 1 ≤ remaining + 1 := by omega
        simp only [fits, if_false, Except.error_bind, tooDeep]
  | tuple3 t0 t1 t2 ih0 ih1 ih2 =>
    cases remaining with
    | zero => exact depthLimitedFromBytes_zero _ _ _
    | succ remaining =>
      have parsed := parseClTupleTypes_flatten (depthLimitedFromBytes remaining) remaining [t0, t1, t2]
        (by simp [ih0, ih1, ih2]) rest
      simp only [List.map_cons, List.map_nil, List.flatten_cons, List.flatten_nil, List.append_nil,
        List.append_assoc, List.length_cons, List.length_nil, Nat.reduceAdd, List.forall_mem_cons,
        List.not_mem_nil, false_implies, implies_true, and_true] at parsed
      simp only [depthLimitedFromBytes, CLType.appendBytes, serializeClTupleType, List.flatten_cons,
        List.flatten_nil, List.append_nil, List.append_assoc, List.cons_append, u8FromBytes_cons, Except.ok_bind, parsed,
        decodedWithin, CLType.height]
      by_cases fits : t0.height ≤ remaining ∧ t1.height ≤ remaining ∧ t2.height ≤ remaining
      · have fitsAll : max t0.height (max t1.height t2.height) + 1 ≤ remaining + 1 := by omega
        simp only [fits, and_self, if_true, Except.ok_bind, fitsAll]
        rfl
      · have tooDeep : ¬ max t0.height (max t1.height t2.height) + 1 ≤ remaining + 1 := by omega
        simp only [fits, if_false, Except.error_bind, tooDeep]
  | bool | i32 | i64 | u8 | u32 | u64 | u128 | u256 | u512 | unit | string | key | uRef | publicKey | any =>
    cases remaining with
    | zero => exact depthLimitedFromBytes_zero _ _ _
    | succ remaining =>
      -- a type without children is its tag alone, and takes one level
      simp only [decodedWithin, CLType.height, Nat.le_add_left, if_true]
      rfl

theorem vector_toList_eq_ofFn {α : Type} {n : Nat} (v : List.Vector α n) : v.toList = List.ofFn v.get := by
  rw [← List.Vector.toList_ofFn, List.Vector.ofFn_get]

/-- What `parse_cl_tuple_types` accepts, from a decoder that accepts only encodings of types
within the levels, is their encodings one after the other. By induction on the count. -/
theorem parseClTupleTypes_eq_ok {decode : List UInt8 → Except Error (CLType × List UInt8)} {remaining : Nat}
    (sound : ∀ bytes t rest, decode bytes = .ok (t, rest) → t.height ≤ remaining ∧ bytes = t.appendBytes ++ rest)
    {count : Nat} {bytes rest : List UInt8} {ts : List.Vector CLType count}
    (read : parseClTupleTypes decode count bytes = .ok (ts, rest)) :
    (∀ t ∈ ts.toList, t.height ≤ remaining) ∧ bytes = (ts.toList.map CLType.appendBytes).flatten ++ rest := by
  induction count generalizing bytes rest with
  | zero =>
    simp only [parseClTupleTypes, Except.ok.injEq, Prod.mk.injEq] at read
    obtain ⟨rfl, rfl⟩ := read
    simp
  | succ count ih =>
    obtain ⟨⟨t, remainder⟩, first, later⟩ := Except.bind_eq_ok.mp read
    obtain ⟨⟨others, remainder'⟩, next, wrapped⟩ := Except.bind_eq_ok.mp later
    simp only [Except.ok.injEq, Prod.mk.injEq] at wrapped
    obtain ⟨rfl, rfl⟩ := wrapped
    obtain ⟨fits, rfl⟩ := sound _ _ _ first
    obtain ⟨othersFit, rfl⟩ := ih next
    refine ⟨?_, by simp [List.append_assoc]⟩
    simp only [List.Vector.toList_cons, List.forall_mem_cons]
    exact ⟨fits, othersFit⟩

/-- What the decoder accepts is the encoding of a type within the levels, followed by the
rest. By induction on the levels; under them, one case for each tag. -/
theorem depthLimitedFromBytes_eq_ok {remaining : Nat} {bytes rest : List UInt8} {t : CLType}
    (read : depthLimitedFromBytes remaining bytes = .ok (t, rest)) :
    t.height ≤ remaining ∧ bytes = t.appendBytes ++ rest := by
  induction remaining generalizing bytes t rest with
  | zero => cases read
  | succ remaining ih =>
    cases bytes with
    | nil => cases read
    | cons tag remainder =>
      simp only [depthLimitedFromBytes, u8FromBytes_cons, Except.ok_bind] at read
      split at read
      -- the tags of types without children, and the tags of no type
      all_goals first
        | (simp only [Except.ok.injEq, Prod.mk.injEq] at read
           obtain ⟨rfl, rfl⟩ := read
           exact ⟨by simp [CLType.height], rfl⟩)
        | (cases read)
        | skip
      · -- option
        obtain ⟨⟨inner, remainder'⟩, decoded, wrapped⟩ := Except.bind_eq_ok.mp read
        simp only [Except.ok.injEq, Prod.mk.injEq] at wrapped
        obtain ⟨rfl, rfl⟩ := wrapped
        obtain ⟨fits, rfl⟩ := ih decoded
        exact ⟨by simp only [CLType.height]; omega, rfl⟩
      · -- list
        obtain ⟨⟨inner, remainder'⟩, decoded, wrapped⟩ := Except.bind_eq_ok.mp read
        simp only [Except.ok.injEq, Prod.mk.injEq] at wrapped
        obtain ⟨rfl, rfl⟩ := wrapped
        obtain ⟨fits, rfl⟩ := ih decoded
        exact ⟨by simp only [CLType.height]; omega, rfl⟩
      · -- byte array
        obtain ⟨⟨len, remainder'⟩, decoded, wrapped⟩ := Except.bind_eq_ok.mp read
        simp only [Except.ok.injEq, Prod.mk.injEq] at wrapped
        obtain ⟨rfl, rfl⟩ := wrapped
        obtain rfl := u32FromBytes_eq_ok decoded
        exact ⟨by simp [CLType.height], rfl⟩
      · -- result
        obtain ⟨⟨okType, remainder'⟩, decodedOk, later⟩ := Except.bind_eq_ok.mp read
        obtain ⟨⟨errType, remainder''⟩, decodedErr, wrapped⟩ := Except.bind_eq_ok.mp later
        simp only [Except.ok.injEq, Prod.mk.injEq] at wrapped
        obtain ⟨rfl, rfl⟩ := wrapped
        obtain ⟨fitsOk, rfl⟩ := ih decodedOk
        obtain ⟨fitsErr, rfl⟩ := ih decodedErr
        exact ⟨by simp only [CLType.height]; omega, by simp [CLType.appendBytes]⟩
      · -- map
        obtain ⟨⟨keyType, remainder'⟩, decodedKey, later⟩ := Except.bind_eq_ok.mp read
        obtain ⟨⟨valueType, remainder''⟩, decodedValue, wrapped⟩ := Except.bind_eq_ok.mp later
        simp only [Except.ok.injEq, Prod.mk.injEq] at wrapped
        obtain ⟨rfl, rfl⟩ := wrapped
        obtain ⟨fitsKey, rfl⟩ := ih decodedKey
        obtain ⟨fitsValue, rfl⟩ := ih decodedValue
        exact ⟨by simp only [CLType.height]; omega, by simp [CLType.appendBytes]⟩
      all_goals
        -- the tuples: each element read one level down
        obtain ⟨⟨innerTypes, remainder'⟩, parsed, wrapped⟩ := Except.bind_eq_ok.mp read
        simp only [Except.ok.injEq, Prod.mk.injEq] at wrapped
        obtain ⟨rfl, rfl⟩ := wrapped
        obtain ⟨fits, rfl⟩ := parseClTupleTypes_eq_ok (fun _ _ _ decoded => ih decoded) parsed
        rw [vector_toList_eq_ofFn] at fits ⊢
        simp only [List.ofFn_succ, List.ofFn_zero, Fin.succ_zero_eq_one, Fin.succ_one_eq_two,
          List.forall_mem_cons, List.not_mem_nil, false_implies, implies_true, and_true] at fits
        refine ⟨by simp only [CLType.height]; omega, ?_⟩
        simp [CLType.appendBytes, serializeClTupleType, List.ofFn_succ]

end Bytes

open Bytesrepr in
theorem cl_type_bytes_round_trip_within_depth :
    (∀ t : CLType, t.serializedLength = t.appendBytes.length) ∧
      (∀ (t : CLType) (rest : List UInt8), t.height ≤ CL_TYPE_RECURSION_DEPTH →
        CLType.fromBytes (t.appendBytes ++ rest) = .ok (t, rest)) ∧
      (∀ (t : CLType) (rest : List UInt8), CL_TYPE_RECURSION_DEPTH < t.height →
        CLType.fromBytes (t.appendBytes ++ rest) = .error .exceededRecursionDepth) ∧
      ∀ (bytes : List UInt8) (t : CLType) (rest : List UInt8), CLType.fromBytes bytes = .ok (t, rest) →
        t.height ≤ CL_TYPE_RECURSION_DEPTH ∧ bytes = t.appendBytes ++ rest := by
  refine ⟨CLType.serializedLength_eq_length, fun t rest fits => ?_, fun t rest deep => ?_,
    fun bytes t rest read => depthLimitedFromBytes_eq_ok read⟩
  · rw [CLType.fromBytes, depthLimitedFromBytes_appendBytes, decodedWithin, if_pos fits]
  · rw [CLType.fromBytes, depthLimitedFromBytes_appendBytes, decodedWithin, if_neg (Nat.not_le.mpr deep)]

/-- At the limit: 48 lists around a named key's pair type read back; 49 options around it
do not. -/
theorem cl_type_bytes_round_trip_at_depth_limit :
    (CLType.list^[48] namedKeyType).height ≤ CL_TYPE_RECURSION_DEPTH ∧
      CLType.fromBytes ((CLType.list^[48] namedKeyType).appendBytes ++ [7]) =
        .ok (CLType.list^[48] namedKeyType, [7]) ∧
      CL_TYPE_RECURSION_DEPTH < (CLType.option^[49] namedKeyType).height ∧
      CLType.fromBytes (CLType.option^[49] namedKeyType).appendBytes = .error .exceededRecursionDepth := by
  have fits : (CLType.list^[48] namedKeyType).height ≤ CL_TYPE_RECURSION_DEPTH := by decide
  have deep : CL_TYPE_RECURSION_DEPTH < (CLType.option^[49] namedKeyType).height := by decide
  have refused := cl_type_bytes_round_trip_within_depth.2.2.1 _ [] deep
  rw [List.append_nil] at refused
  exact ⟨fits, cl_type_bytes_round_trip_within_depth.2.1 _ _ fits, deep, refused⟩

end CasperTypes
