import CasperNode.Lib.WrappingCast
import CasperNode.Types.CLType

/-!
Transforms of the execution engine (`execution_engine/src/shared/transform.rs`):
`Transform::apply`, `impl Add for Transform`, and `wrapping_addition`. A
`CLValue` of an integer type is modelled by its decoded value; every Rust cast
between the integer types (`as`, `as_()`, `into()`) keeps the integer value
modulo `2^width`. Named keys are a map from names to keys of any type `κ`;
`BTreeMap::append` lets the right operand win.
-/
namespace ExecutionTransform
open CasperTypes WrappingCast
variable {κ : Type}

/-- The integer `CLType`s that `wrapping_addition` can add to. -/
inductive IntType where
  | i32
  | i64
  | u8
  | u32
  | u64
  | u128
  | u256
  | u512
  deriving DecidableEq, Repr

def IntType.width : IntType → Nat
  | .i32 => 32
  | .i64 => 64
  | .u8 => 8
  | .u32 => 32
  | .u64 => 64
  | .u128 => 128
  | .u256 => 256
  | .u512 => 512

def IntType.clType : IntType → CLType
  | .i32 => .i32
  | .i64 => .i64
  | .u8 => .u8
  | .u32 => .u32
  | .u64 => .u64
  | .u128 => .u128
  | .u256 => .u256
  | .u512 => .u512

/-- A `CLValue` whose bytes decode at its type: an integer by its value, any
other type by its tag and bytes. -/
inductive CLValue where
  | int (t : IntType) (x : BitVec t.width)
  | other (clType : CLType) (bytes : List UInt8) (notInt : ∀ t : IntType, t.clType ≠ clType)

def CLValue.clType : CLValue → CLType
  | .int t _ => t.clType
  | .other clType _ _ => clType

def NamedKeys (κ : Type) := String → Option κ

/-- `BTreeMap::append`: every entry of `other` is moved into `self`, replacing
an entry of the same name. -/
def NamedKeys.append (self other : NamedKeys κ) : NamedKeys κ :=
  fun name => (other name).or (self name)

theorem NamedKeys.append_assoc (a b c : NamedKeys κ) :
    (a.append b).append c = a.append (b.append c) := by
  funext name
  simp only [NamedKeys.append, Option.or_assoc]

/-- `StoredValue`. Only the named keys of accounts and contracts are read by
the transforms; the other variants' payloads are not modelled. -/
inductive StoredValue (κ : Type) where
  | clValue (v : CLValue)
  | account (namedKeys : NamedKeys κ)
  | contractWasm
  | contract (namedKeys : NamedKeys κ)
  | contractPackage
  | transfer
  | deployInfo
  | eraInfo
  | bid
  | withdraw
  | unbonding

def StoredValue.typeName : StoredValue κ → String
  | .clValue v => v.clType.debugText
  | .account _ => "Account"
  | .contractWasm => "ContractWasm"
  | .contract _ => "Contract"
  | .contractPackage => "ContractPackage"
  | .transfer => "Transfer"
  | .deployInfo => "DeployInfo"
  | .eraInfo => "EraInfo"
  | .bid => "Bid"
  | .withdraw => "Withdraw"
  | .unbonding => "Unbonding"

/-- `transform::Error`. -/
inductive Error where
  | serialization
  | typeMismatch (expected found : String)
  deriving DecidableEq, Repr

/-- `do_wrapping_addition` at the stored type: the addend is cast to the
stored width and added with wrap-around. -/
def doWrappingAddition (t : IntType) (x : BitVec t.width) (toAdd : Int) : BitVec t.width :=
  x + BitVec.ofInt t.width toAdd

/-- `wrapping_addition`, with `toAdd` the integer value of the addend and
`typeName` its `any::type_name`. `CLValue::try_from` turns a contract package
into a `CLValue` of type `Any` and rejects the other non-`CLValue` variants. -/
def wrappingAddition (storedValue : StoredValue κ) (toAdd : Int) (typeName : String) :
    Except Error (StoredValue κ) :=
  match storedValue with
  | .clValue (.int t x) => .ok (.clValue (.int t (doWrappingAddition t x toAdd)))
  | .clValue (.other clType _ _) =>
    .error (.typeMismatch ("integral type compatible with " ++ typeName) clType.debugText)
  | .contractPackage =>
    .error (.typeMismatch ("integral type compatible with " ++ typeName) CLType.any.debugText)
  | sv => .error (.typeMismatch "CLValue" sv.typeName)

inductive Transform (κ : Type) where
  | identity
  | write (v : StoredValue κ)
  | addInt32 (i : BitVec 32)
  | addUInt64 (i : BitVec 64)
  | addUInt128 (i : BitVec 128)
  | addUInt256 (i : BitVec 256)
  | addUInt512 (i : BitVec 512)
  | addKeys (keys : NamedKeys κ)
  | failure (e : Error)

/-- The variant name that starts a transform's `Debug` text; the payload's
text is not modelled. -/
def Transform.variantName : Transform κ → String
  | .identity => "Identity"
  | .write _ => "Write"
  | .addInt32 _ => "AddInt32"
  | .addUInt64 _ => "AddUInt64"
  | .addUInt128 _ => "AddUInt128"
  | .addUInt256 _ => "AddUInt256"
  | .addUInt512 _ => "AddUInt512"
  | .addKeys _ => "AddKeys"
  | .failure _ => "Failure"

/-- `Transform::apply`. -/
def Transform.apply : Transform κ → StoredValue κ → Except Error (StoredValue κ)
  | .identity, sv => .ok sv
  | .write newValue, _ => .ok newValue
  | .addInt32 i, sv => wrappingAddition sv i.toInt "i32"
  | .addUInt64 i, sv => wrappingAddition sv i.toNat "u64"
  | .addUInt128 i, sv => wrappingAddition sv i.toNat "casper_types::uint::macro_code::U128"
  | .addUInt256 i, sv => wrappingAddition sv i.toNat "casper_types::uint::macro_code::U256"
  | .addUInt512 i, sv => wrappingAddition sv i.toNat "casper_types::uint::macro_code::U512"
  | .addKeys keys, .contract namedKeys => .ok (.contract (namedKeys.append keys))
  | .addKeys keys, .account namedKeys => .ok (.account (namedKeys.append keys))
  | .addKeys _, sv => .error (.typeMismatch "Contract or Account" sv.typeName)
  | .failure error, _ => .error error

/-- `wrapped_transform_addition` for a payload of width `w` (`U128`, `U256`,
`U512`): `into` wraps a payload back into its transform and `tryFrom` is
`T::try_from`, which accepts only the transform of the same width. -/
def wrappedTransformAddition {w : Nat} (i : BitVec w) (b : Transform κ) (expected : String)
    (into : BitVec w → Transform κ) (tryFrom : Transform κ → Option (BitVec w)) :
    Transform κ :=
  match b with
  | .addInt32 j => into (i + BitVec.ofInt w j.toInt)
  | .addUInt64 j => into (i + BitVec.ofNat w j.toNat)
  | b =>
    match tryFrom b with
    | none => .failure (.typeMismatch expected b.variantName)
    | some j => into (i + j)

def Transform.tryAddUInt128 : Transform κ → Option (BitVec 128)
  | .addUInt128 j => some j
  | _ => none

def Transform.tryAddUInt256 : Transform κ → Option (BitVec 256)
  | .addUInt256 j => some j
  | _ => none

def Transform.tryAddUInt512 : Transform κ → Option (BitVec 512)
  | .addUInt512 j => some j
  | _ => none

/-- `impl Add for Transform`. The arms are tried in the source's order. -/
def Transform.add : Transform κ → Transform κ → Transform κ
  | a, .identity => a
  | .identity, b => b
  | .failure e, _ => .failure e
  | _, .failure e => .failure e
  | _, .write v => .write v
  | .write v, b =>
    -- the second transform changes the value being written
    match b.apply v with
    | .error error => .failure error
    | .ok newValue => .write newValue
  | .addInt32 i, b =>
    match b with
    | .addInt32 j => .addInt32 (i + j)
    | .addUInt64 j => .addUInt64 (j + BitVec.ofInt 64 i.toInt)
    | .addUInt128 j => .addUInt128 (j + BitVec.ofInt 128 i.toInt)
    | .addUInt256 j => .addUInt256 (j + BitVec.ofInt 256 i.toInt)
    | .addUInt512 j => .addUInt512 (j + BitVec.ofInt 512 i.toInt)
    | other => .failure (.typeMismatch "AddInt32" other.variantName)
  | .addUInt64 i, b =>
    match b with
    | .addInt32 j => .addInt32 (j + BitVec.ofNat 32 i.toNat)
    | .addUInt64 j => .addUInt64 (i + j)
    | .addUInt128 j => .addUInt128 (j + BitVec.ofNat 128 i.toNat)
    | .addUInt256 j => .addUInt256 (j + BitVec.ofNat 256 i.toNat)
    | .addUInt512 j => .addUInt512 (j + BitVec.ofNat 512 i.toNat)
    | other => .failure (.typeMismatch "AddUInt64" other.variantName)
  | .addUInt128 i, b => wrappedTransformAddition i b "U128" .addUInt128 Transform.tryAddUInt128
  | .addUInt256 i, b => wrappedTransformAddition i b "U256" .addUInt256 Transform.tryAddUInt256
  | .addUInt512 i, b => wrappedTransformAddition i b "U512" .addUInt512 Transform.tryAddUInt512
  | .addKeys ks1, b =>
    match b with
    | .addKeys ks2 => .addKeys (ks1.append ks2)
    | other => .failure (.typeMismatch "AddKeys" other.variantName)

def Transform.addend : Transform κ → Option (Nat × Int)
  | .addInt32 i => some (32, i.toInt)
  | .addUInt64 i => some (64, i.toNat)
  | .addUInt128 i => some (128, i.toNat)
  | .addUInt256 i => some (256, i.toNat)
  | .addUInt512 i => some (512, i.toNat)
  | _ => none

/-- Every transform is an identity, a write, an addition of named keys, a
failure, or a numeric addition. -/
theorem Transform.kind (t : Transform κ) :
    t = .identity ∨ (∃ x, t = .write x) ∨ (∃ ks, t = .addKeys ks) ∨ (∃ e, t = .failure e) ∨
      ∃ n z, t.addend = some (n, z) := by
  cases t <;> simp [Transform.addend]

/-- `ExecutionEffect::from(journal).transforms`: the additive map from keys
to the sum of their journaled transforms. -/
def effectTransforms {K : Type} [DecidableEq K] (journal : List (K × Transform κ)) :
    K → Option (Transform κ) :=
  journal.foldl
    (fun (m : K → Option (Transform κ)) entry =>
      Function.update m entry.1 (some (((m entry.1).getD .identity).add entry.2)))
    (fun _ => none)

/-! ### `TrackingCopy` on one key -/

/-- `TrackingCopy::read`, `write` and `add` on one key. -/
inductive KeyOp (κ : Type) where
  | read
  | write (value : StoredValue κ)
  | add (value : StoredValue κ)

/-- The transform `TrackingCopy::add` builds from the value to add; a
`(String, Key)` value is decoded by `decodeNamedKey` (its `bytesrepr`). -/
def addTransform (decodeNamedKey : List UInt8 → Option (String × κ)) :
    StoredValue κ → Option (Transform κ)
  | .clValue (.int .i32 x) => some (.addInt32 x)
  | .clValue (.int .u64 x) => some (.addUInt64 x)
  | .clValue (.int .u128 x) => some (.addUInt128 x)
  | .clValue (.int .u256 x) => some (.addUInt256 x)
  | .clValue (.int .u512 x) => some (.addUInt512 x)
  | .clValue (.other clType bytes _) =>
    if clType = namedKeyType then
      (decodeNamedKey bytes).map fun (name, key) =>
        .addKeys fun n => if n = name then some key else none
    else none
  | _ => none

/-- What `TrackingCopy` holds for one key: the value `get` returns (cached or
read from the prestate) and the transforms journaled for the key. -/
structure KeyState (κ : Type) where
  current : Option (StoredValue κ)
  journal : List (Transform κ)

/-- One operation. A failed `add` (key not found, type mismatch, failed
`apply`) journals nothing and caches nothing. -/
def KeyState.step (decodeNamedKey : List UInt8 → Option (String × κ)) (s : KeyState κ) :
    KeyOp κ → KeyState κ
  | .read =>
    match s.current with
    | some _ => { s with journal := s.journal ++ [.identity] }
    | none => s
  | .write value => { current := some value, journal := s.journal ++ [.write value] }
  | .add value =>
    match s.current, addTransform decodeNamedKey value with
    | some current, some transform =>
      match transform.apply current with
      | .ok newValue => { current := some newValue, journal := s.journal ++ [transform] }
      | .error _ => s
    | _, _ => s

def KeyState.run (decodeNamedKey : List UInt8 → Option (String × κ)) (s : KeyState κ)
    (ops : List (KeyOp κ)) : KeyState κ :=
  ops.foldl (KeyState.step decodeNamedKey) s

end ExecutionTransform
