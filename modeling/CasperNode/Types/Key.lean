import Mathlib
import CasperNode.Lib.Radix
import CasperNode.Types.ChecksummedHex

/-!
The text form of a `Key` (`types/src/key.rs`: `to_formatted_string`, `from_formatted_str`),
with those of `AccountHash` (`account/account_hash.rs`), `TransferAddr` (`transfer.rs`) and `URef`
(`uref.rs`) it calls. A key is written as a prefix naming its variant and the lowercase hex of
its bytes, an era id in decimal, and the access rights of a `URef` in three octal digits. The
reader tries the prefixes in a fixed order and hands the rest to `checksummed_hex::decode`,
`EraId::from_str` or `u8::from_str_radix`.

A `String` an error variant carries is modelled by what it is the text of (`ErrorText`).
-/

namespace CasperTypes

/-- `[u8; N]`. -/
structure FixedBytes (n : Nat) where
  toList : List UInt8
  length_eq : toList.length = n
  deriving DecidableEq

/-- `<[u8; N]>::try_from(&[u8])`: `none` is the `TryFromSliceError` of a slice of another
length. -/
def FixedBytes.tryFrom (n : Nat) (bytes : List UInt8) : Option (FixedBytes n) :=
  if h : bytes.length = n then some ⟨bytes, h⟩ else none

theorem FixedBytes.tryFrom_of_length {n : Nat} {bytes : List UInt8} (length : bytes.length = n) :
    tryFrom n bytes = some ⟨bytes, length⟩ := by
  rw [tryFrom, dif_pos length]

theorem FixedBytes.tryFrom_toList {n : Nat} (array : FixedBytes n) : tryFrom n array.toList = some array :=
  tryFrom_of_length array.length_eq

def KEY_HASH_LENGTH : Nat := 32
def ACCOUNT_HASH_LENGTH : Nat := 32
def UREF_ADDR_LENGTH : Nat := 32
def TRANSFER_ADDR_LENGTH : Nat := 32
def DEPLOY_HASH_LENGTH : Nat := 32
def KEY_DICTIONARY_LENGTH : Nat := 32

def PADDING_BYTES : List UInt8 := List.replicate 32 0

def ACCOUNT_HASH_FORMATTED_STRING_PREFIX : String := "account-hash-"
def TRANSFER_ADDR_FORMATTED_STRING_PREFIX : String := "transfer-"
def UREF_FORMATTED_STRING_PREFIX : String := "uref-"
def HASH_PREFIX : String := "hash-"
def DEPLOY_INFO_PREFIX : String := "deploy-"
def ERA_INFO_PREFIX : String := "era-"
def BALANCE_PREFIX : String := "balance-"
def BID_PREFIX : String := "bid-"
def WITHDRAW_PREFIX : String := "withdraw-"
def DICTIONARY_PREFIX : String := "dictionary-"
def UNBOND_PREFIX : String := "unbond-"
def SYSTEM_CONTRACT_REGISTRY_PREFIX : String := "system-contract-registry-"
def ERA_SUMMARY_PREFIX : String := "era-summary-"
def CHAINSPEC_REGISTRY_PREFIX : String := "chainspec-registry-"
def CHECKSUM_REGISTRY_PREFIX : String := "checksum-registry-"

/-- `AccessRights`, the bitflags `READ = 1`, `WRITE = 2` and `ADD = 4`: no other bit is set. -/
structure AccessRights where
  bits : UInt8
  below : bits.toNat < 8
  deriving DecidableEq

/-- `AccessRights::from_bits`: `none` when a bit outside the three flags is set. -/
def AccessRights.fromBits (bits : UInt8) : Option AccessRights :=
  if h : bits.toNat < 8 then some ⟨bits, h⟩ else none

structure URef where
  addr : FixedBytes UREF_ADDR_LENGTH
  accessRights : AccessRights
  deriving DecidableEq

structure AccountHash where
  value : FixedBytes ACCOUNT_HASH_LENGTH
  deriving DecidableEq

structure TransferAddr where
  value : FixedBytes TRANSFER_ADDR_LENGTH
  deriving DecidableEq

structure DeployHash where
  value : FixedBytes DEPLOY_HASH_LENGTH
  deriving DecidableEq

structure EraId where
  value : UInt64
  deriving DecidableEq

inductive Key where
  | account (accountHash : AccountHash)
  | hash (addr : FixedBytes KEY_HASH_LENGTH)
  | uref (uref : URef)
  | transfer (addr : TransferAddr)
  | deployInfo (hash : DeployHash)
  | eraInfo (eraId : EraId)
  | balance (addr : FixedBytes UREF_ADDR_LENGTH)
  | bid (accountHash : AccountHash)
  | withdraw (accountHash : AccountHash)
  | dictionary (addr : FixedBytes KEY_DICTIONARY_LENGTH)
  | systemContractRegistry
  | eraSummary
  | unbond (accountHash : AccountHash)
  | chainspecRegistry
  | checksumRegistry
  deriving DecidableEq

/-- What the `String` of an error variant is the text of. -/
inductive ErrorText where
  | decode (error : Base16.DecodeError)
  | tryFromSlice
  | parseInt (kind : Radix.IntErrorKind)
  | message (text : String)
  deriving DecidableEq

/-- `account::FromStrError` and `transfer::FromStrError`, which differ only in the name of the
variant of a wrong length (`Hash` and `Length`). -/
inductive AddrFromStrError where
  | invalidPrefix
  | hex (error : Base16.DecodeError)
  | length
  deriving DecidableEq

/-- `uref::FromStrError`. -/
inductive URef.FromStrError where
  | invalidPrefix
  | missingSuffix
  | invalidAccessRights
  | hex (error : Base16.DecodeError)
  | int (kind : Radix.IntErrorKind)
  | address
  deriving DecidableEq

/-- `key::FromStrError`. -/
inductive Key.FromStrError where
  | account (error : AddrFromStrError)
  | hash (text : ErrorText)
  | uref (error : URef.FromStrError)
  | transfer (error : AddrFromStrError)
  | deployInfo (text : ErrorText)
  | eraInfo (text : ErrorText)
  | balance (text : ErrorText)
  | bid (text : ErrorText)
  | withdraw (text : ErrorText)
  | dictionary (text : ErrorText)
  | systemContractRegistry (text : ErrorText)
  | eraSummary (text : ErrorText)
  | unbond (text : ErrorText)
  | chainspecRegistry (text : ErrorText)
  | checksumRegistry (text : ErrorText)
  | unknownPrefix
  deriving DecidableEq

/-- `str::strip_prefix`. -/
def stripPrefix (pre : String) (input : List Char) : Option (List Char) :=
  if pre.toList.isPrefixOf input then some (input.drop pre.toList.length) else none

/-- `splitn(2, sep)` read as its two parts: the text before the first separator and the text
after it, and `none` when there is no separator, so only one part. -/
def splitOnce (sep : Char) : List Char → Option (List Char × List Char)
  | [] => none
  | c :: rest => if c = sep then some ([], rest) else (splitOnce sep rest).map fun parts => (c :: parts.1, parts.2)

section Formatting

variable (base16 : Base16.Codec)

/-- `to_formatted_string` of `AccountHash` and `TransferAddr`: the prefix and the lowercase hex
of the bytes. -/
def formatAddr {n : Nat} (pre : String) (addr : FixedBytes n) : List Char :=
  pre.toList ++ base16.encodeLower addr.toList

def AccountHash.toFormattedString (accountHash : AccountHash) : List Char :=
  formatAddr base16 ACCOUNT_HASH_FORMATTED_STRING_PREFIX accountHash.value

def TransferAddr.toFormattedString (transferAddr : TransferAddr) : List Char :=
  formatAddr base16 TRANSFER_ADDR_FORMATTED_STRING_PREFIX transferAddr.value

/-- `URef::to_formatted_string`: the address in hex, then the access rights in at least three
octal digits (`{:03o}`). -/
def URef.toFormattedString (uref : URef) : List Char :=
  UREF_FORMATTED_STRING_PREFIX.toList ++ (base16.encodeLower uref.addr.toList ++
    '-' :: Radix.padZeros 3 (Radix.toChars 8 uref.accessRights.bits.toNat))

def Key.toFormattedString : Key → List Char
  | .account accountHash => accountHash.toFormattedString base16
  | .hash addr => formatAddr base16 HASH_PREFIX addr
  | .uref reference => reference.toFormattedString base16
  | .transfer transferAddr => transferAddr.toFormattedString base16
  | .deployInfo deployHash => formatAddr base16 DEPLOY_INFO_PREFIX deployHash.value
  | .eraInfo eraId => ERA_INFO_PREFIX.toList ++ Radix.toChars 10 eraId.value.toNat
  | .balance addr => formatAddr base16 BALANCE_PREFIX addr
  | .bid accountHash => formatAddr base16 BID_PREFIX accountHash.value
  | .withdraw accountHash => formatAddr base16 WITHDRAW_PREFIX accountHash.value
  | .dictionary addr => formatAddr base16 DICTIONARY_PREFIX addr
  | .systemContractRegistry => SYSTEM_CONTRACT_REGISTRY_PREFIX.toList ++ base16.encodeLower PADDING_BYTES
  | .eraSummary => ERA_SUMMARY_PREFIX.toList ++ base16.encodeLower PADDING_BYTES
  | .unbond accountHash => formatAddr base16 UNBOND_PREFIX accountHash.value
  | .chainspecRegistry => CHAINSPEC_REGISTRY_PREFIX.toList ++ base16.encodeLower PADDING_BYTES
  | .checksumRegistry => CHECKSUM_REGISTRY_PREFIX.toList ++ base16.encodeLower PADDING_BYTES

end Formatting

section Parsing

variable (base16 : Base16.Codec) (blake2b : List UInt8 → List UInt8)

/-- `from_formatted_str` of `AccountHash` and `TransferAddr`: the prefix, then hex of exactly `n`
bytes. -/
def parseAddr (pre : String) (n : Nat) (input : List Char) : Except AddrFromStrError (FixedBytes n) :=
  match stripPrefix pre input with
  | none => .error .invalidPrefix
  | some remainder =>
    match ChecksummedHex.decode base16 blake2b remainder with
    | .error error => .error (.hex error)
    | .ok bytes =>
      match FixedBytes.tryFrom n bytes with
      | some array => .ok array
      | none => .error .length

def AccountHash.fromFormattedStr (input : List Char) : Except AddrFromStrError AccountHash :=
  (parseAddr base16 blake2b ACCOUNT_HASH_FORMATTED_STRING_PREFIX ACCOUNT_HASH_LENGTH input).map AccountHash.mk

def TransferAddr.fromFormattedStr (input : List Char) : Except AddrFromStrError TransferAddr :=
  (parseAddr base16 blake2b TRANSFER_ADDR_FORMATTED_STRING_PREFIX TRANSFER_ADDR_LENGTH input).map TransferAddr.mk

/-- `URef::from_formatted_str`: the address, checked as an array, before the access rights. -/
def URef.fromFormattedStr (input : List Char) : Except URef.FromStrError URef :=
  match stripPrefix UREF_FORMATTED_STRING_PREFIX input with
  | none => .error .invalidPrefix
  | some remainder =>
    match splitOnce '-' remainder with
    | none => .error .missingSuffix
    | some (addrText, rightsText) =>
      match ChecksummedHex.decode base16 blake2b addrText with
      | .error error => .error (.hex error)
      | .ok bytes =>
        match FixedBytes.tryFrom UREF_ADDR_LENGTH bytes with
        | none => .error .address
        | some addr =>
          match Radix.fromStrRadix 8 256 rightsText with
          | .error kind => .error (.int kind)
          | .ok value =>
            match AccessRights.fromBits (UInt8.ofNat value) with
            | none => .error .invalidAccessRights
            | some accessRights => .ok ⟨addr, accessRights⟩

/-- A branch of `Key::from_formatted_str` that calls the reader of another type: its value is
the key, its `InvalidPrefix` sends the input on to the next branch, and any other error is the
key's. -/
def delegate {α ε : Type} [DecidableEq ε] (result : Except ε α) (invalidPrefix : ε)
    (keyError : ε → Key.FromStrError) (wrap : α → Key) : Option (Except Key.FromStrError Key) :=
  match result with
  | .ok value => some (.ok (wrap value))
  | .error error => if error = invalidPrefix then none else some (.error (keyError error))

/-- A branch of `Key::from_formatted_str` for a prefix followed by the hex of `n` bytes; `none`
when the prefix is not there. Both failures are reported under the key's variant, a wrong length
with the text `lengthText`. -/
def hexBranch (pre : String) (n : Nat) (keyError : ErrorText → Key.FromStrError) (lengthText : ErrorText)
    (wrap : FixedBytes n → Key) (input : List Char) : Option (Except Key.FromStrError Key) :=
  (stripPrefix pre input).map fun hex =>
    match ChecksummedHex.decode base16 blake2b hex with
    | .error error => .error (keyError (.decode error))
    | .ok bytes =>
      match FixedBytes.tryFrom n bytes with
      | some array => .ok (wrap array)
      | none => .error (keyError lengthText)

/-- The `era-` branch: the rest is the era id in decimal. -/
def eraInfoBranch (input : List Char) : Option (Except Key.FromStrError Key) :=
  (stripPrefix ERA_INFO_PREFIX input).map fun eraIdText =>
    match Radix.fromStrRadix 10 (2 ^ 64) eraIdText with
    | .error kind => .error (.eraInfo (.parseInt kind))
    | .ok value => .ok (.eraInfo ⟨UInt64.ofNat value⟩)

/-- `Key::from_formatted_str`: the first branch, in the source's order, whose prefix the input
has decides. -/
def Key.fromFormattedStr (input : List Char) : Except Key.FromStrError Key :=
  (delegate (AccountHash.fromFormattedStr base16 blake2b input) .invalidPrefix .account .account
    <|> hexBranch base16 blake2b HASH_PREFIX KEY_HASH_LENGTH .hash .tryFromSlice .hash input
    <|> hexBranch base16 blake2b DEPLOY_INFO_PREFIX DEPLOY_HASH_LENGTH .deployInfo .tryFromSlice
      (fun bytes => .deployInfo ⟨bytes⟩) input
    <|> delegate (TransferAddr.fromFormattedStr base16 blake2b input) .invalidPrefix .transfer .transfer
    <|> delegate (URef.fromFormattedStr base16 blake2b input) .invalidPrefix .uref .uref
    <|> hexBranch base16 blake2b ERA_SUMMARY_PREFIX 32 .eraSummary
      (.message "Failed to deserialize era summary key") (fun _ => .eraSummary) input
    <|> eraInfoBranch input
    <|> hexBranch base16 blake2b BALANCE_PREFIX UREF_ADDR_LENGTH .balance .tryFromSlice .balance input
    <|> hexBranch base16 blake2b BID_PREFIX ACCOUNT_HASH_LENGTH .bid .tryFromSlice (fun bytes => .bid ⟨bytes⟩) input
    <|> hexBranch base16 blake2b WITHDRAW_PREFIX ACCOUNT_HASH_LENGTH .withdraw .tryFromSlice
      (fun bytes => .withdraw ⟨bytes⟩) input
    <|> hexBranch base16 blake2b UNBOND_PREFIX ACCOUNT_HASH_LENGTH .unbond .tryFromSlice (fun bytes => .unbond ⟨bytes⟩) input
    <|> hexBranch base16 blake2b DICTIONARY_PREFIX KEY_DICTIONARY_LENGTH .dictionary .tryFromSlice .dictionary input
    <|> hexBranch base16 blake2b SYSTEM_CONTRACT_REGISTRY_PREFIX 32 .systemContractRegistry
      (.message "Failed to deserialize system registry key") (fun _ => .systemContractRegistry) input
    <|> hexBranch base16 blake2b CHAINSPEC_REGISTRY_PREFIX 32 .chainspecRegistry
      (.message "Failed to deserialize chainspec registry key") (fun _ => .chainspecRegistry) input
    <|> hexBranch base16 blake2b CHECKSUM_REGISTRY_PREFIX 32 .checksumRegistry
      (.message "Failed to deserialize checksum registry key") (fun _ => .checksumRegistry) input).getD
    (.error .unknownPrefix)

end Parsing

section RoundTrip

theorem stripPrefix_append (pre : String) (rest : List Char) : stripPrefix pre (pre.toList ++ rest) = some rest := by
  rw [stripPrefix, if_pos (List.isPrefixOf_iff_prefix.mpr (List.prefix_append _ _)), List.drop_left]

/-- A prefix that neither begins nor extends the one a text starts with is not stripped from it:
two prefixes of one text are prefixes of each other. -/
theorem stripPrefix_of_apart {pre pre' : String} (rest : List Char)
    (apart : pre'.toList.isPrefixOf pre.toList = false ∧ pre.toList.isPrefixOf pre'.toList = false) :
    stripPrefix pre' (pre.toList ++ rest) = none := by
  rw [stripPrefix, if_neg]
  intro stripped
  rcases List.prefix_or_prefix_of_prefix (List.isPrefixOf_iff_prefix.mp stripped)
    (List.prefix_append pre.toList rest) with shorter | longer
  · exact absurd (List.isPrefixOf_iff_prefix.mpr shorter) (by rw [apart.1]; decide)
  · exact absurd (List.isPrefixOf_iff_prefix.mpr longer) (by rw [apart.2]; decide)

theorem stripPrefix_eraSummary_eraInfo (n : Nat) :
    stripPrefix ERA_SUMMARY_PREFIX (ERA_INFO_PREFIX.toList ++ Radix.toChars 10 n) = none := by
  have nonempty : Radix.digits 10 n ≠ [] := Radix.digits_ne_nil n
  obtain ⟨d, ds, spelled⟩ := List.exists_cons_of_ne_nil nonempty
  have digit : d < 10 := Radix.digits_lt (by norm_num) n d (spelled ▸ List.mem_cons_self ..)
  have code := Radix.toNat_digitChar digit
  have summary : ERA_SUMMARY_PREFIX.toList = ERA_INFO_PREFIX.toList ++ 's' :: "ummary-".toList := by decide
  rw [stripPrefix, if_neg]
  rw [summary, List.isPrefixOf_iff_prefix, List.prefix_append_right_inj, Radix.toChars, spelled, List.map_cons,
    List.cons_prefix_cons]
  rintro ⟨same, -⟩
  rw [← same] at code
  simp at code
  omega

theorem splitOnce_append (sep : Char) {before : List Char} (absent : sep ∉ before) (rest : List Char) :
    splitOnce sep (before ++ sep :: rest) = some (before, rest) := by
  induction before with
  | nil => simp [splitOnce]
  | cons c before ih =>
    have other : c ≠ sep := fun same => absent (same ▸ List.mem_cons_self ..)
    rw [List.cons_append, splitOnce, if_neg other, ih (fun member => absent (List.mem_cons_of_mem c member))]
    rfl

variable {base16 : Base16.Codec}

theorem dash_not_mem_encodeLower (lowerDigits : ∀ bytes, ∀ c ∈ base16.encodeLower bytes, c ∈ Base16.LOWER_DIGITS)
    (bytes : List UInt8) : '-' ∉ base16.encodeLower bytes := fun member =>
  absurd (lowerDigits bytes '-' member) (by decide)

variable (blake2b : List UInt8 → List UInt8)
  (roundTrip : ∀ bytes, base16.decode (base16.encodeLower bytes) = .ok bytes)
  (lowerDigits : ∀ bytes, ∀ c ∈ base16.encodeLower bytes, c ∈ Base16.LOWER_DIGITS)

include roundTrip lowerDigits in
theorem parseAddr_formatAddr (pre : String) {n : Nat} (addr : FixedBytes n) :
    parseAddr base16 blake2b pre n (pre.toList ++ base16.encodeLower addr.toList) = .ok addr := by
  rw [parseAddr, stripPrefix_append]
  dsimp only
  rw [ChecksummedHex.decode_encodeLower base16 roundTrip lowerDigits]
  dsimp only
  rw [FixedBytes.tryFrom_toList]

theorem parseAddr_of_apart {pre pre' : String} (n : Nat) (rest : List Char)
    (apart : pre'.toList.isPrefixOf pre.toList = false ∧ pre.toList.isPrefixOf pre'.toList = false) :
    parseAddr base16 blake2b pre' n (pre.toList ++ rest) = .error .invalidPrefix := by
  rw [parseAddr, stripPrefix_of_apart rest apart]

theorem URef.fromFormattedStr_of_apart {pre : String} (rest : List Char)
    (apart : UREF_FORMATTED_STRING_PREFIX.toList.isPrefixOf pre.toList = false ∧
      pre.toList.isPrefixOf UREF_FORMATTED_STRING_PREFIX.toList = false) :
    URef.fromFormattedStr base16 blake2b (pre.toList ++ rest) = .error .invalidPrefix := by
  rw [URef.fromFormattedStr, stripPrefix_of_apart rest apart]

include roundTrip lowerDigits in
/-- The reader of `URef` takes back what its writer writes: the address has no `-`, and the three
octal digits are the access rights. -/
theorem URef.fromFormattedStr_toFormattedString (uref : URef) :
    URef.fromFormattedStr base16 blake2b (uref.toFormattedString base16) = .ok uref := by
  obtain ⟨addr, ⟨bits, below⟩⟩ := uref
  have byte : bits.toNat < 256 := bits.toNat_lt
  rw [URef.fromFormattedStr, URef.toFormattedString, stripPrefix_append]
  dsimp only
  rw [splitOnce_append '-' (dash_not_mem_encodeLower lowerDigits _)]
  dsimp only
  rw [ChecksummedHex.decode_encodeLower base16 roundTrip lowerDigits]
  dsimp only
  rw [FixedBytes.tryFrom_toList]
  dsimp only
  rw [Radix.fromStrRadix_padZeros_toChars (by norm_num) (by norm_num) 3 byte]
  dsimp only
  rw [UInt8.ofNat_toNat, AccessRights.fromBits, dif_pos below]

theorem delegate_invalidPrefix {α ε : Type} [DecidableEq ε] (invalidPrefix : ε)
    (keyError : ε → Key.FromStrError) (wrap : α → Key) :
    delegate (.error invalidPrefix) invalidPrefix keyError wrap = none := by
  simp [delegate]

theorem hexBranch_of_apart {pre pre' : String} {n : Nat} (keyError : ErrorText → Key.FromStrError)
    (lengthText : ErrorText) (wrap : FixedBytes n → Key) (rest : List Char)
    (apart : pre'.toList.isPrefixOf pre.toList = false ∧ pre.toList.isPrefixOf pre'.toList = false) :
    hexBranch base16 blake2b pre' n keyError lengthText wrap (pre.toList ++ rest) = none := by
  rw [hexBranch, stripPrefix_of_apart rest apart]
  rfl

include roundTrip lowerDigits in
theorem hexBranch_encodeLower (pre : String) {n : Nat} (keyError : ErrorText → Key.FromStrError)
    (lengthText : ErrorText) (wrap : FixedBytes n → Key) {bytes : List UInt8} (length : bytes.length = n) :
    hexBranch base16 blake2b pre n keyError lengthText wrap (pre.toList ++ base16.encodeLower bytes) =
      some (.ok (wrap ⟨bytes, length⟩)) := by
  rw [hexBranch, stripPrefix_append, Option.map_some]
  rw [ChecksummedHex.decode_encodeLower base16 roundTrip lowerDigits]
  dsimp only
  rw [FixedBytes.tryFrom_of_length length]

include roundTrip lowerDigits in
theorem hexBranch_formatAddr (pre : String) {n : Nat} (keyError : ErrorText → Key.FromStrError)
    (lengthText : ErrorText) (wrap : FixedBytes n → Key) (addr : FixedBytes n) :
    hexBranch base16 blake2b pre n keyError lengthText wrap (pre.toList ++ base16.encodeLower addr.toList) =
      some (.ok (wrap addr)) :=
  hexBranch_encodeLower blake2b roundTrip lowerDigits pre keyError lengthText wrap addr.length_eq

theorem hexBranch_eraSummary_eraInfo {n : Nat} (keyError : ErrorText → Key.FromStrError) (lengthText : ErrorText)
    (wrap : FixedBytes n → Key) (eraId : Nat) :
    hexBranch base16 blake2b ERA_SUMMARY_PREFIX n keyError lengthText wrap (ERA_INFO_PREFIX.toList ++ Radix.toChars 10 eraId) =
      none := by
  rw [hexBranch, stripPrefix_eraSummary_eraInfo]
  rfl

theorem eraInfoBranch_of_apart {pre : String} (rest : List Char)
    (apart : ERA_INFO_PREFIX.toList.isPrefixOf pre.toList = false ∧ pre.toList.isPrefixOf ERA_INFO_PREFIX.toList = false) :
    eraInfoBranch (pre.toList ++ rest) = none := by
  rw [eraInfoBranch, stripPrefix_of_apart rest apart]
  rfl

theorem eraInfoBranch_toChars (eraId : EraId) :
    eraInfoBranch (ERA_INFO_PREFIX.toList ++ Radix.toChars 10 eraId.value.toNat) = some (.ok (.eraInfo eraId)) := by
  rw [eraInfoBranch, stripPrefix_append, Option.map_some]
  rw [Radix.fromStrRadix_toChars (by norm_num) (by norm_num) eraId.value.toNat_lt]
  dsimp only
  rw [UInt64.ofNat_toNat]

/-! The branches that call the reader of another type, like `hexBranch` above: on the text of a
key of their own variant, and on one under another prefix. -/

theorem delegate_parseAddr_of_apart {β : Type} {pre pre' : String} {n : Nat} (mk : FixedBytes n → β)
    (keyError : AddrFromStrError → Key.FromStrError) (wrap : β → Key) (rest : List Char)
    (apart : pre'.toList.isPrefixOf pre.toList = false ∧ pre.toList.isPrefixOf pre'.toList = false) :
    delegate ((parseAddr base16 blake2b pre' n (pre.toList ++ rest)).map mk) .invalidPrefix keyError wrap = none := by
  rw [parseAddr_of_apart blake2b n rest apart]
  exact delegate_invalidPrefix _ _ _

include roundTrip lowerDigits in
theorem delegate_parseAddr_formatAddr {β : Type} (pre : String) {n : Nat} (mk : FixedBytes n → β)
    (keyError : AddrFromStrError → Key.FromStrError) (wrap : β → Key) (addr : FixedBytes n) :
    delegate ((parseAddr base16 blake2b pre n (pre.toList ++ base16.encodeLower addr.toList)).map mk) .invalidPrefix
      keyError wrap = some (.ok (wrap (mk addr))) := by
  rw [parseAddr_formatAddr blake2b roundTrip lowerDigits]
  rfl

theorem delegate_uref_of_apart {pre : String} (rest : List Char)
    (apart : UREF_FORMATTED_STRING_PREFIX.toList.isPrefixOf pre.toList = false ∧
      pre.toList.isPrefixOf UREF_FORMATTED_STRING_PREFIX.toList = false) :
    delegate (URef.fromFormattedStr base16 blake2b (pre.toList ++ rest)) .invalidPrefix .uref .uref = none := by
  rw [URef.fromFormattedStr_of_apart blake2b rest apart]
  exact delegate_invalidPrefix _ _ _

include roundTrip lowerDigits in
/-- Stated on the text unfolded, as the other branches see it. -/
theorem delegate_uref_toFormattedString (uref : URef) :
    delegate (URef.fromFormattedStr base16 blake2b (UREF_FORMATTED_STRING_PREFIX.toList ++
        (base16.encodeLower uref.addr.toList ++ '-' :: Radix.padZeros 3 (Radix.toChars 8 uref.accessRights.bits.toNat))))
      .invalidPrefix .uref .uref = some (.ok (.uref uref)) := by
  rw [← URef.toFormattedString, URef.fromFormattedStr_toFormattedString blake2b roundTrip lowerDigits]
  rfl

include roundTrip lowerDigits in
/-- Every key reads back from its text. The reader tries the prefixes in the source's order; the
branches before the key's own find their prefix apart from the key's (`era-` and `era-summary-`
apart, which the first digit of the era id settles), so they pass the text on. -/
theorem from_formatted_str_reads_to_formatted_string (key : Key) :
    Key.fromFormattedStr base16 blake2b (key.toFormattedString base16) = .ok key := by
  cases key <;>
    -- each key's text is its prefix and what follows it
    simp only [Key.toFormattedString, AccountHash.toFormattedString, TransferAddr.toFormattedString,
      URef.toFormattedString, formatAddr] <;>
    -- the branches before the key's own pass the text on, and its own reads it
    simp (disch := decide +kernel) only [Key.fromFormattedStr, AccountHash.fromFormattedStr,
      TransferAddr.fromFormattedStr, delegate_parseAddr_formatAddr blake2b roundTrip lowerDigits,
      delegate_parseAddr_of_apart, delegate_uref_toFormattedString blake2b roundTrip lowerDigits, delegate_uref_of_apart,
      hexBranch_of_apart, hexBranch_formatAddr blake2b roundTrip lowerDigits,
      hexBranch_encodeLower blake2b roundTrip lowerDigits, hexBranch_eraSummary_eraInfo, eraInfoBranch_of_apart,
      eraInfoBranch_toChars] <;>
    simp only [Option.orElse_eq_orElse, Option.orElse_eq_or, Option.none_or, Option.some_or, Option.getD_some]

/-- A `URef`: its address in hex, split off at the dash, and its access rights in octal. -/
theorem from_formatted_str_reads_back_on_sample :
    (∀ bytes, Base16.Sample.codec.decode (Base16.Sample.codec.encodeLower bytes) = .ok bytes) ∧
    (∀ bytes, ∀ c ∈ Base16.Sample.codec.encodeLower bytes, c ∈ Base16.LOWER_DIGITS) ∧
    Key.fromFormattedStr Base16.Sample.codec id ((Key.uref ⟨⟨PADDING_BYTES, rfl⟩, ⟨7, by decide⟩⟩).toFormattedString
      Base16.Sample.codec) = .ok (.uref ⟨⟨PADDING_BYTES, rfl⟩, ⟨7, by decide⟩⟩) :=
  ⟨Base16.Sample.codec_roundTrip, Base16.Sample.codec_lowerDigits, from_formatted_str_reads_to_formatted_string id
    Base16.Sample.codec_roundTrip Base16.Sample.codec_lowerDigits _⟩

end RoundTrip

end CasperTypes
