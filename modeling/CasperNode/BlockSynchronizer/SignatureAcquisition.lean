import Mathlib

/-!
`SignatureAcquisition` (`components/block_synchronizer/signature_acquisition.rs`)
with the `EraValidatorWeights` arithmetic it calls (`types/validator_matrix.rs`).
Public keys have a type `κ`, digests a type `ρ`. The `BTreeMap` of signature
states is an `AList`, so each validator has one state. Weights are `U512`; they
are `Nat` here.
-/
namespace BlockSynchronizer

inductive SignatureWeight where
  | insufficient
  | weak
  | strict
  deriving DecidableEq, Repr

def SignatureWeight.isSufficient : SignatureWeight → Bool → Bool
  | .insufficient, _ => false
  | .weak, requiresStrictFinality => !requiresStrictFinality
  | .strict, _ => true

/-- A `Ratio<u64>` by its numerator and denominator. -/
structure Ratio where
  numer : Nat
  denom : Nat
  deriving DecidableEq, Repr

structure EraValidatorWeights (κ : Type) where
  eraId : Nat
  validatorWeights : List (κ × Nat)
  finalityThresholdFraction : Ratio

structure FinalitySignature (κ ρ : Type) where
  blockHash : ρ
  eraId : Nat
  publicKey : κ
  deriving DecidableEq, Repr

inductive SignatureState (κ ρ : Type) where
  | vacant
  | pending
  | signature (finalitySignature : FinalitySignature κ ρ)
  deriving DecidableEq, Repr

inductive LegacyRequiredFinality where
  | strict
  | weak
  | any
  deriving DecidableEq, Repr

inductive Acceptance where
  | hadIt
  | neededIt
  deriving DecidableEq, Repr

structure SignatureAcquisition (κ ρ : Type) where
  inner : AList (fun _ : κ => SignatureState κ ρ)
  maybeIsLegacy : Option Bool
  signatureWeight : SignatureWeight
  legacyRequiredFinality : LegacyRequiredFinality

section Weights
variable {κ ρ : Type} [DecidableEq κ]

def EraValidatorWeights.getTotalWeight (weights : EraValidatorWeights κ) : Nat :=
  (weights.validatorWeights.map (·.2)).sum

def EraValidatorWeights.getWeight (weights : EraValidatorWeights κ) (publicKey : κ) : Nat :=
  (weights.validatorWeights.lookup publicKey).getD 0

def EraValidatorWeights.signedWeight (weights : EraValidatorWeights κ) (validatorKeys : List κ) :
    Nat :=
  (validatorKeys.map weights.getWeight).sum

def EraValidatorWeights.signatureWeight (weights : EraValidatorWeights κ)
    (validatorKeys : List κ) : SignatureWeight :=
  let fraction := weights.finalityThresholdFraction
  -- `Ratio::new(1, 2) * (1 + fraction)` before reduction, which the comparison ignores
  let strict : Ratio := ⟨fraction.denom + fraction.numer, 2 * fraction.denom⟩
  let totalEraWeight := weights.getTotalWeight
  let signatureWeight := weights.signedWeight validatorKeys
  if signatureWeight * strict.denom > totalEraWeight * strict.numer then .strict
  else if signatureWeight * fraction.denom > totalEraWeight * fraction.numer then .weak
  else .insufficient

end Weights

section Acquisition
variable {κ ρ : Type} [DecidableEq κ]

def SignatureAcquisition.new (validators : List κ) (legacyRequiredFinality : LegacyRequiredFinality) :
    SignatureAcquisition κ ρ :=
  { inner := validators.foldl (fun inner validator => inner.insert validator .vacant) ∅
    maybeIsLegacy := none
    signatureWeight := .insufficient
    legacyRequiredFinality }

def SignatureAcquisition.registerPending (acquisition : SignatureAcquisition κ ρ) (publicKey : κ) :
    SignatureAcquisition κ ρ :=
  match acquisition.inner.lookup publicKey with
  | none | some .vacant => { acquisition with inner := acquisition.inner.insert publicKey .pending }
  | some _ => acquisition

def SignatureAcquisition.haveSignatures (acquisition : SignatureAcquisition κ ρ) : List κ :=
  acquisition.inner.entries.filterMap fun entry =>
    match entry.2 with
    | .signature _ => some entry.1
    | _ => none

def SignatureAcquisition.applySignature (acquisition : SignatureAcquisition κ ρ)
    (finalitySignature : FinalitySignature κ ρ) (validatorWeights : EraValidatorWeights κ) :
    SignatureAcquisition κ ρ × Acceptance :=
  let (inner, acceptance) : AList (fun _ : κ => SignatureState κ ρ) × Acceptance :=
    match acquisition.inner.lookup finalitySignature.publicKey with
    | some (.signature _) => (acquisition.inner, .hadIt)
    | _ => (acquisition.inner.insert finalitySignature.publicKey (.signature finalitySignature),
        .neededIt)
  let acquisition := { acquisition with inner }
  if acquisition.signatureWeight ≠ .strict then
    ({ acquisition with
      signatureWeight := validatorWeights.signatureWeight acquisition.haveSignatures }, acceptance)
  else (acquisition, acceptance)

def SignatureAcquisition.setIsLegacy (acquisition : SignatureAcquisition κ ρ) (isLegacy : Bool) :
    SignatureAcquisition κ ρ :=
  { acquisition with maybeIsLegacy := some isLegacy }

def SignatureAcquisition.isLegacy (acquisition : SignatureAcquisition κ ρ) : Bool :=
  acquisition.maybeIsLegacy.getD false

/-- `has_sufficient_finality`: legacy blocks of a historical sync are held to
the chainspec's `legacy_required_finality`. -/
def SignatureAcquisition.hasSufficientFinality (acquisition : SignatureAcquisition κ ρ)
    (isHistorical requiresStrictFinality : Bool) : Bool :=
  if isHistorical && acquisition.isLegacy then
    match acquisition.legacyRequiredFinality with
    | .strict => acquisition.signatureWeight.isSufficient requiresStrictFinality
    | .weak => acquisition.signatureWeight = .strict || acquisition.signatureWeight = .weak
    | .any => true
  else acquisition.signatureWeight.isSufficient requiresStrictFinality

end Acquisition

end BlockSynchronizer
