import Mathlib
import CasperNode.Lib.AssocList

/-!
Associated keys and action thresholds of an `Account` (`types/src/account.rs`,
`account/associated_keys.rs`, `account/action_thresholds.rs`). A `Weight` is a `u8`, and each
sum of weights in the source is a fold of `saturating_add` over `u8`. The methods take the
account by `&mut self` and return a `Result`; here they return the account they leave with
that result. The named keys and the main purse are not read by any of them.
-/

namespace CasperTypes

variable {κ : Type} [DecidableEq κ]

/-- `u8::saturating_add`. -/
def saturatingAdd (a b : UInt8) : UInt8 := if a.toNat + b.toNat < 256 then a + b else 255

/-- `AssociatedKeys`: a `BTreeMap` from account hashes to weights, so no key twice. Entries
are kept in insertion order, which none of the sums depends on. -/
structure AssociatedKeys (κ : Type) where
  entries : List (κ × UInt8)
  nodup : (entries.map Prod.fst).Nodup

inductive AddKeyFailure where
  | maxKeysLimit
  | duplicateKey
  | permissionDenied
  deriving DecidableEq, Repr

inductive RemoveKeyFailure where
  | missingKey
  | permissionDenied
  | thresholdViolation
  deriving DecidableEq, Repr

inductive UpdateKeyFailure where
  | missingKey
  | permissionDenied
  | thresholdViolation
  deriving DecidableEq, Repr

inductive SetThresholdFailure where
  | keyManagementThreshold
  | deploymentThreshold
  | permissionDeniedError
  | insufficientTotalWeight
  deriving DecidableEq, Repr

namespace AssociatedKeys

def new (key : κ) (weight : UInt8) : AssociatedKeys κ := ⟨[(key, weight)], List.nodup_singleton _⟩

def keys (associatedKeys : AssociatedKeys κ) : List κ := associatedKeys.entries.map Prod.fst

def get (associatedKeys : AssociatedKeys κ) (key : κ) : Option UInt8 := associatedKeys.entries.lookup key

def containsKey (associatedKeys : AssociatedKeys κ) (key : κ) : Bool := (associatedKeys.get key).isSome

/-- `add_key`: a vacant entry takes the weight, an occupied one is a duplicate. -/
def addKey (associatedKeys : AssociatedKeys κ) (key : κ) (weight : UInt8) :
    AssociatedKeys κ × Except AddKeyFailure Unit :=
  if present : key ∈ associatedKeys.keys then (associatedKeys, .error .duplicateKey)
  else
    (⟨associatedKeys.entries ++ [(key, weight)], by
      rw [List.map_append, List.nodup_append]
      refine ⟨associatedKeys.nodup, List.nodup_singleton _, ?_⟩
      intro other listed added appended same
      simp only [List.map_cons, List.map_nil, List.mem_singleton] at appended
      subst appended same
      exact present listed⟩, .ok ())

def removeKey (associatedKeys : AssociatedKeys κ) (key : κ) : AssociatedKeys κ × Except RemoveKeyFailure Unit :=
  if key ∈ associatedKeys.keys then
    (⟨associatedKeys.entries.filter (·.1 ≠ key),
      (List.filter_sublist.map Prod.fst).nodup associatedKeys.nodup⟩, .ok ())
  else (associatedKeys, .error .missingKey)

/-- `update_key`: the weight of an occupied entry is replaced. -/
def updateKey (associatedKeys : AssociatedKeys κ) (key : κ) (weight : UInt8) :
    AssociatedKeys κ × Except UpdateKeyFailure Unit :=
  if key ∈ associatedKeys.keys then
    (⟨associatedKeys.entries.map (fun entry => if entry.1 = key then (entry.1, weight) else entry), by
      rw [List.map_map]
      have sameKeys : (Prod.fst ∘ fun entry : κ × UInt8 => if entry.1 = key then (entry.1, weight) else entry) =
          Prod.fst := by
        funext entry
        by_cases hit : entry.1 = key <;> simp [hit]
      rw [sameKeys]
      exact associatedKeys.nodup⟩, .ok ())
  else (associatedKeys, .error .missingKey)

/-- `calculate_any_keys_weight`: the weights of the given keys that are associated, summed with
`saturating_add`. -/
def calculateAnyKeysWeight (associatedKeys : AssociatedKeys κ) (keys : List κ) : UInt8 :=
  (keys.filterMap associatedKeys.get).foldl saturatingAdd 0

def calculateKeysWeight (associatedKeys : AssociatedKeys κ) (authorizationKeys : List κ) : UInt8 :=
  associatedKeys.calculateAnyKeysWeight authorizationKeys

def totalKeysWeight (associatedKeys : AssociatedKeys κ) : UInt8 :=
  associatedKeys.calculateAnyKeysWeight associatedKeys.keys

def totalKeysWeightExcluding (associatedKeys : AssociatedKeys κ) (accountHash : κ) : UInt8 :=
  associatedKeys.calculateAnyKeysWeight (associatedKeys.keys.filter (· ≠ accountHash))

end AssociatedKeys

structure ActionThresholds where
  deployment : UInt8
  keyManagement : UInt8
  deriving DecidableEq, Repr

inductive ActionType where
  | deployment
  | keyManagement
  deriving DecidableEq, Repr

namespace ActionThresholds

def default : ActionThresholds := ⟨1, 1⟩

def setDeploymentThreshold (thresholds : ActionThresholds) (newThreshold : UInt8) :
    ActionThresholds × Except SetThresholdFailure Unit :=
  if newThreshold > thresholds.keyManagement then (thresholds, .error .deploymentThreshold)
  else ({ thresholds with deployment := newThreshold }, .ok ())

def setKeyManagementThreshold (thresholds : ActionThresholds) (newThreshold : UInt8) :
    ActionThresholds × Except SetThresholdFailure Unit :=
  if thresholds.deployment > newThreshold then (thresholds, .error .keyManagementThreshold)
  else ({ thresholds with keyManagement := newThreshold }, .ok ())

def setThreshold (thresholds : ActionThresholds) (actionType : ActionType) (newThreshold : UInt8) :
    ActionThresholds × Except SetThresholdFailure Unit :=
  match actionType with
  | .deployment => thresholds.setDeploymentThreshold newThreshold
  | .keyManagement => thresholds.setKeyManagementThreshold newThreshold

end ActionThresholds

structure Account (κ : Type) where
  accountHash : κ
  associatedKeys : AssociatedKeys κ
  actionThresholds : ActionThresholds

namespace Account

/-- `Account::create`: the account's own key with weight 1, and the default thresholds. -/
def create (account : κ) : Account κ := ⟨account, .new account 1, .default⟩

def addAssociatedKey (account : Account κ) (accountHash : κ) (weight : UInt8) :
    Account κ × Except AddKeyFailure Unit :=
  let outcome := account.associatedKeys.addKey accountHash weight
  ({ account with associatedKeys := outcome.1 }, outcome.2)

def canRemoveKey (account : Account κ) (accountHash : κ) : Bool :=
  let totalWeightWithout := account.associatedKeys.totalKeysWeightExcluding accountHash
  totalWeightWithout ≥ account.actionThresholds.deployment &&
    totalWeightWithout ≥ account.actionThresholds.keyManagement

def canUpdateKey (account : Account κ) (accountHash : κ) (weight : UInt8) : Bool :=
  let totalWeight := account.associatedKeys.totalKeysWeightExcluding accountHash
  let newWeight := saturatingAdd totalWeight weight
  newWeight ≥ account.actionThresholds.deployment && newWeight ≥ account.actionThresholds.keyManagement

/-- `remove_associated_key`: the thresholds are checked only for a key that is there. -/
def removeAssociatedKey (account : Account κ) (accountHash : κ) : Account κ × Except RemoveKeyFailure Unit :=
  if account.associatedKeys.containsKey accountHash && !account.canRemoveKey accountHash then
    (account, .error .thresholdViolation)
  else
    let outcome := account.associatedKeys.removeKey accountHash
    ({ account with associatedKeys := outcome.1 }, outcome.2)

/-- `update_associated_key`: the thresholds are checked only when the weight goes down. -/
def updateAssociatedKey (account : Account κ) (accountHash : κ) (weight : UInt8) :
    Account κ × Except UpdateKeyFailure Unit :=
  let violates := match account.associatedKeys.get accountHash with
    | some currentWeight => weight < currentWeight && !account.canUpdateKey accountHash weight
    | none => false
  if violates then (account, .error .thresholdViolation)
  else
    let outcome := account.associatedKeys.updateKey accountHash weight
    ({ account with associatedKeys := outcome.1 }, outcome.2)

def canSetThreshold (account : Account κ) (newThreshold : UInt8) : Except SetThresholdFailure Unit :=
  if newThreshold > account.associatedKeys.totalKeysWeight then .error .insufficientTotalWeight else .ok ()

/-- `set_action_threshold`: the new threshold is checked against the total weight first. -/
def setActionThreshold (account : Account κ) (actionType : ActionType) (weight : UInt8) :
    Account κ × Except SetThresholdFailure Unit :=
  match account.canSetThreshold weight with
  | .error error => (account, .error error)
  | .ok () =>
    let outcome := account.actionThresholds.setThreshold actionType weight
    ({ account with actionThresholds := outcome.1 }, outcome.2)

def canDeployWith (account : Account κ) (authorizationKeys : List κ) : Bool :=
  account.associatedKeys.calculateKeysWeight authorizationKeys ≥ account.actionThresholds.deployment

def canManageKeysWith (account : Account κ) (authorizationKeys : List κ) : Bool :=
  account.associatedKeys.calculateKeysWeight authorizationKeys ≥ account.actionThresholds.keyManagement

end Account

/-! ## Saturated weights against exact sums -/

theorem saturatingAdd_toNat (a b : UInt8) : (saturatingAdd a b).toNat = min (a.toNat + b.toNat) 255 := by
  unfold saturatingAdd
  split
  · rename_i fits
    rw [UInt8.toNat_add]
    omega
  · have saturated : (255 : UInt8).toNat = 255 := rfl
    omega

theorem foldl_saturatingAdd_toNat (weights : List UInt8) (acc : UInt8) :
    (weights.foldl saturatingAdd acc).toNat = min (acc.toNat + (weights.map UInt8.toNat).sum) 255 := by
  induction weights generalizing acc with
  | nil =>
    have bounded := acc.toNat_lt
    simp only [List.foldl_nil, List.map_nil, List.sum_nil, Nat.add_zero]
    omega
  | cons weight rest ih =>
    rw [List.foldl_cons, ih, saturatingAdd_toNat, List.map_cons, List.sum_cons]
    omega

namespace AssociatedKeys

/-- The sum of all weights as a natural number, with no saturation. -/
def exactTotalWeight (associatedKeys : AssociatedKeys κ) : Nat :=
  (associatedKeys.entries.map fun entry => entry.2.toNat).sum

/-- The exact sum of the weights of all keys but one. -/
def exactWeightExcluding (associatedKeys : AssociatedKeys κ) (accountHash : κ) : Nat :=
  ((associatedKeys.entries.filter (·.1 ≠ accountHash)).map fun entry => entry.2.toNat).sum

theorem containsKey_iff (associatedKeys : AssociatedKeys κ) (key : κ) :
    associatedKeys.containsKey key = true ↔ key ∈ associatedKeys.keys := by
  simp only [containsKey, get, keys, List.lookup_isSome_iff, List.mem_map, beq_iff_eq]
  constructor <;> rintro ⟨entry, listed, same⟩ <;> exact ⟨entry, listed, same.symm⟩

theorem calculateAnyKeysWeight_toNat (associatedKeys : AssociatedKeys κ) (keys : List κ) :
    (associatedKeys.calculateAnyKeysWeight keys).toNat =
      min ((keys.filterMap associatedKeys.get).map UInt8.toNat).sum 255 := by
  rw [calculateAnyKeysWeight, foldl_saturatingAdd_toNat]
  simp

theorem filterMap_get_filter_keys (associatedKeys : AssociatedKeys κ) (p : κ → Bool) :
    (associatedKeys.keys.filter p).filterMap associatedKeys.get =
      (associatedKeys.entries.filter fun entry => p entry.1).map Prod.snd :=
  AssocList.filterMap_lookup_filter_keys p associatedKeys.nodup

theorem totalKeysWeight_toNat (associatedKeys : AssociatedKeys κ) :
    associatedKeys.totalKeysWeight.toNat = min associatedKeys.exactTotalWeight 255 := by
  have everyKey := associatedKeys.filterMap_get_filter_keys fun _ => true
  simp only [List.filter_true] at everyKey
  rw [totalKeysWeight, calculateAnyKeysWeight_toNat, everyKey, List.map_map]
  rfl

theorem totalKeysWeightExcluding_toNat (associatedKeys : AssociatedKeys κ) (accountHash : κ) :
    (associatedKeys.totalKeysWeightExcluding accountHash).toNat =
      min (associatedKeys.exactWeightExcluding accountHash) 255 := by
  rw [totalKeysWeightExcluding, calculateAnyKeysWeight_toNat, filterMap_get_filter_keys, List.map_map]
  rfl

/-- With distinct keys, the exact total is the weight of one entry plus the weights of the
others. By induction on the entries: the entry is either the head, and then no later entry
has its key, or it is further on and the head is kept by the filter. -/
theorem weights_sum_split {entries : List (κ × UInt8)} (nodup : (entries.map Prod.fst).Nodup)
    {accountHash : κ} {weight : UInt8} (member : (accountHash, weight) ∈ entries) :
    (entries.map fun entry => entry.2.toNat).sum =
      ((entries.filter (·.1 ≠ accountHash)).map fun entry => entry.2.toNat).sum + weight.toNat := by
  induction entries with
  | nil => simp at member
  | cons entry rest ih =>
    obtain ⟨key, value⟩ := entry
    rw [List.map_cons, List.nodup_cons] at nodup
    obtain ⟨fresh, nodupRest⟩ := nodup
    by_cases same : key = accountHash
    · subst same
      have notLater : (key, weight) ∉ rest := fun later => fresh (List.mem_map.mpr ⟨_, later, rfl⟩)
      have headValue : value = weight := by
        rcases List.mem_cons.mp member with head | later
        · exact (Prod.mk.inj head).2.symm
        · exact absurd later notLater
      have restKept : rest.filter (·.1 ≠ key) = rest := by
        refine List.filter_eq_self.mpr fun other listed => ?_
        have differs : other.1 ≠ key := fun same => fresh (List.mem_map.mpr ⟨other, listed, same⟩)
        simpa using differs
      simp only [List.map_cons, List.sum_cons, List.filter_cons, ne_eq, not_true_eq_false,
        decide_false, Bool.false_eq_true, if_false, restKept, headValue]
      omega
    · have later : (accountHash, weight) ∈ rest := by
        rcases List.mem_cons.mp member with head | later
        · exact absurd (Prod.mk.inj head).1.symm same
        · exact later
      simp only [List.map_cons, List.sum_cons, List.filter_cons, ne_eq, same, not_false_eq_true,
        decide_true, if_true, ih nodupRest later]
      omega

theorem exactTotalWeight_split (associatedKeys : AssociatedKeys κ) {accountHash : κ} {weight : UInt8}
    (member : (accountHash, weight) ∈ associatedKeys.entries) :
    associatedKeys.exactTotalWeight = associatedKeys.exactWeightExcluding accountHash + weight.toNat :=
  weights_sum_split associatedKeys.nodup member

theorem unchanged_of_addKey_error {associatedKeys : AssociatedKeys κ} {key : κ} {weight : UInt8}
    {error : AddKeyFailure} (failed : (associatedKeys.addKey key weight).2 = .error error) :
    (associatedKeys.addKey key weight).1 = associatedKeys := by
  unfold addKey at failed ⊢
  split
  · rfl
  · simp_all

theorem unchanged_of_removeKey_error {associatedKeys : AssociatedKeys κ} {key : κ}
    {error : RemoveKeyFailure} (failed : (associatedKeys.removeKey key).2 = .error error) :
    (associatedKeys.removeKey key).1 = associatedKeys := by
  unfold removeKey at failed ⊢
  split
  · simp_all
  · rfl

theorem unchanged_of_updateKey_error {associatedKeys : AssociatedKeys κ} {key : κ} {weight : UInt8}
    {error : UpdateKeyFailure} (failed : (associatedKeys.updateKey key weight).2 = .error error) :
    (associatedKeys.updateKey key weight).1 = associatedKeys := by
  unfold updateKey at failed ⊢
  split
  · simp_all
  · rfl

theorem exactTotalWeight_le_addKey (associatedKeys : AssociatedKeys κ) (key : κ) (weight : UInt8) :
    associatedKeys.exactTotalWeight ≤ (associatedKeys.addKey key weight).1.exactTotalWeight := by
  unfold addKey
  split
  · exact Nat.le_refl _
  · simp [exactTotalWeight]

/-- A successful `remove_key` removed a key that was there, and the rest weighs what the
others weighed. -/
theorem removeKey_of_ok {associatedKeys : AssociatedKeys κ} {key : κ}
    (succeeded : (associatedKeys.removeKey key).2 = .ok ()) :
    key ∈ associatedKeys.keys ∧
      (associatedKeys.removeKey key).1.exactTotalWeight = associatedKeys.exactWeightExcluding key := by
  unfold removeKey at succeeded ⊢
  split
  · exact ⟨‹_›, rfl⟩
  · simp_all

theorem filter_update_entries (entries : List (κ × UInt8)) (key : κ) (weight : UInt8) :
    (entries.map (fun entry => if entry.1 = key then (entry.1, weight) else entry)).filter (·.1 ≠ key) =
      entries.filter (·.1 ≠ key) := by
  induction entries with
  | nil => rfl
  | cons entry rest ih =>
    by_cases hit : entry.1 = key
    · simp only [List.map_cons, hit, if_true, List.filter_cons, ne_eq, not_true_eq_false, decide_false,
        Bool.false_eq_true, if_false, ih]
    · simp only [List.map_cons, hit, if_false, List.filter_cons, ne_eq, not_false_eq_true, decide_true,
        if_true, ih]

theorem updateKey_of_ok {associatedKeys : AssociatedKeys κ} {key : κ} {weight : UInt8}
    (succeeded : (associatedKeys.updateKey key weight).2 = .ok ()) :
    key ∈ associatedKeys.keys ∧
      (associatedKeys.updateKey key weight).1.exactTotalWeight =
        associatedKeys.exactWeightExcluding key + weight.toNat := by
  unfold updateKey at succeeded ⊢
  split
  · rename_i present
    refine ⟨present, ?_⟩
    obtain ⟨entry, listed, rfl⟩ := List.mem_map.mp present
    have replaced : (entry.1, weight) ∈
        associatedKeys.entries.map (fun other => if other.1 = entry.1 then (other.1, weight) else other) :=
      List.mem_map.mpr ⟨entry, listed, by simp⟩
    rw [exactTotalWeight_split _ replaced, exactWeightExcluding, exactWeightExcluding, filter_update_entries]
  · simp_all

end AssociatedKeys

/-! ## Well-formed accounts

An account is well formed when its deployment threshold is at most its key-management threshold
and that is at most the exact sum of its weights. The source checks every change against the
saturated sums instead; since a saturated sum never exceeds the exact one, each check it passes
is one the exact sum passes too. -/

namespace Account

structure WellFormed (account : Account κ) : Prop where
  deployment_le : account.actionThresholds.deployment.toNat ≤ account.actionThresholds.keyManagement.toNat
  keyManagement_le : account.actionThresholds.keyManagement.toNat ≤ account.associatedKeys.exactTotalWeight

/-- What every key-management entry point is required to do: keep an account well formed, and
leave it as it was when it fails. -/
structure KeepsWellFormed {ε : Type} (operation : Account κ → Account κ × Except ε Unit) : Prop where
  keeps : ∀ account, account.WellFormed → (operation account).1.WellFormed
  unchanged : ∀ account error, (operation account).2 = .error error → (operation account).1 = account

omit [DecidableEq κ] in
/-- A call that leaves the account unchanged when it fails keeps it well formed once its
successful runs do. -/
theorem KeepsWellFormed.of_ok {ε : Type} {operation : Account κ → Account κ × Except ε Unit}
    (unchanged : ∀ account error, (operation account).2 = .error error → (operation account).1 = account)
    (keepsOk : ∀ account, account.WellFormed → (operation account).2 = .ok () → (operation account).1.WellFormed) :
    KeepsWellFormed operation := by
  refine ⟨fun account wellFormed => ?_, unchanged⟩
  cases result : (operation account).2 with
  | error error => rw [unchanged account error result]; exact wellFormed
  | ok u => exact keepsOk account wellFormed result

omit [DecidableEq κ] in
theorem create_wellFormed (accountHash : κ) : (create accountHash).WellFormed := by
  constructor <;> simp [create, AssociatedKeys.new, ActionThresholds.default, AssociatedKeys.exactTotalWeight]

theorem addAssociatedKey_keeps (accountHash : κ) (weight : UInt8) :
    KeepsWellFormed fun account : Account κ => account.addAssociatedKey accountHash weight := by
  refine KeepsWellFormed.of_ok (fun account error failed => ?_) (fun account wellFormed _ => ?_)
  · have unchanged := AssociatedKeys.unchanged_of_addKey_error failed
    simp only [addAssociatedKey, unchanged]
  · have grown := account.associatedKeys.exactTotalWeight_le_addKey accountHash weight
    exact ⟨wellFormed.deployment_le, Nat.le_trans wellFormed.keyManagement_le grown⟩

/-- The cases of `remove_associated_key`: refused by the threshold check, or passed on to
`remove_key` because the key is absent or removing it leaves enough weight. -/
theorem removeAssociatedKey_cases (account : Account κ) (accountHash : κ) :
    account.removeAssociatedKey accountHash = (account, .error .thresholdViolation) ∨
      (account.associatedKeys.containsKey accountHash = true → account.canRemoveKey accountHash = true) ∧
        account.removeAssociatedKey accountHash =
          ({ account with associatedKeys := (account.associatedKeys.removeKey accountHash).1 },
            (account.associatedKeys.removeKey accountHash).2) := by
  unfold removeAssociatedKey
  split
  · exact .inl rfl
  · rename_i allowed
    refine .inr ⟨fun contained => ?_, rfl⟩
    simpa [contained] using allowed

/-- The cases of `update_associated_key`: refused by the threshold check, or passed on to
`update_key` because the weight does not go down or the rest carries the thresholds. -/
theorem updateAssociatedKey_cases (account : Account κ) (accountHash : κ) (weight : UInt8) :
    account.updateAssociatedKey accountHash weight = (account, .error .thresholdViolation) ∨
      (∀ current, account.associatedKeys.get accountHash = some current → weight < current →
          account.canUpdateKey accountHash weight = true) ∧
        account.updateAssociatedKey accountHash weight =
          ({ account with associatedKeys := (account.associatedKeys.updateKey accountHash weight).1 },
            (account.associatedKeys.updateKey accountHash weight).2) := by
  unfold updateAssociatedKey
  cases found : account.associatedKeys.get accountHash with
  | none => exact .inr ⟨fun _ absent => (nomatch absent), rfl⟩
  | some current =>
    dsimp only
    split
    · exact .inl rfl
    · rename_i allowed
      refine .inr ⟨fun other found' lowered => ?_, rfl⟩
      obtain rfl : current = other := Option.some.inj found'
      simpa [lowered] using allowed

theorem canSetThreshold_eq_ok (account : Account κ) (newThreshold : UInt8) :
    account.canSetThreshold newThreshold = .ok () ↔
      newThreshold.toNat ≤ min account.associatedKeys.exactTotalWeight 255 := by
  rw [← AssociatedKeys.totalKeysWeight_toNat, ← UInt8.le_iff_toNat_le]
  unfold canSetThreshold
  split <;> simp_all

/-- The cases of `set_action_threshold`: refused by the total-weight check, or passed on to
`set_threshold` with a threshold the keys can carry. -/
theorem setActionThreshold_cases (account : Account κ) (actionType : ActionType) (weight : UInt8) :
    (∃ error, account.setActionThreshold actionType weight = (account, .error error)) ∨
      weight.toNat ≤ min account.associatedKeys.exactTotalWeight 255 ∧
        account.setActionThreshold actionType weight =
          ({ account with actionThresholds := (account.actionThresholds.setThreshold actionType weight).1 },
            (account.actionThresholds.setThreshold actionType weight).2) := by
  unfold setActionThreshold
  split
  · exact .inl ⟨_, rfl⟩
  · rename_i checked
    exact .inr ⟨(account.canSetThreshold_eq_ok weight).mp checked, rfl⟩

end Account

namespace ActionThresholds

theorem setThreshold_unchanged_of_error {thresholds : ActionThresholds} {actionType : ActionType}
    {newThreshold : UInt8} {error : SetThresholdFailure}
    (failed : (thresholds.setThreshold actionType newThreshold).2 = .error error) :
    (thresholds.setThreshold actionType newThreshold).1 = thresholds := by
  cases actionType with
  | deployment =>
    simp only [setThreshold, setDeploymentThreshold] at failed ⊢
    split
    · rfl
    · simp_all
  | keyManagement =>
    simp only [setThreshold, setKeyManagementThreshold] at failed ⊢
    split
    · rfl
    · simp_all

/-- A successful `set_threshold` keeps the deployment threshold at most the key-management one,
and the key-management threshold is the old one or the new one. -/
theorem setThreshold_of_ok {thresholds : ActionThresholds} {actionType : ActionType} {newThreshold : UInt8}
    (succeeded : (thresholds.setThreshold actionType newThreshold).2 = .ok ()) :
    (thresholds.setThreshold actionType newThreshold).1.deployment.toNat ≤
        (thresholds.setThreshold actionType newThreshold).1.keyManagement.toNat ∧
      ((thresholds.setThreshold actionType newThreshold).1.keyManagement = thresholds.keyManagement ∨
        (thresholds.setThreshold actionType newThreshold).1.keyManagement = newThreshold) := by
  cases actionType with
  | deployment =>
    simp only [setThreshold, setDeploymentThreshold] at succeeded ⊢
    split
    · simp_all
    · rename_i fits
      simp only [gt_iff_lt, UInt8.lt_iff_toNat_lt, Nat.not_lt] at fits
      exact ⟨fits, .inl rfl⟩
  | keyManagement =>
    simp only [setThreshold, setKeyManagementThreshold] at succeeded ⊢
    split
    · simp_all
    · rename_i fits
      simp only [gt_iff_lt, UInt8.lt_iff_toNat_lt, Nat.not_lt] at fits
      exact ⟨fits, .inr rfl⟩

end ActionThresholds

namespace Account

theorem removeAssociatedKey_keeps (accountHash : κ) :
    KeepsWellFormed fun account : Account κ => account.removeAssociatedKey accountHash := by
  refine KeepsWellFormed.of_ok (fun account error failed => ?_) (fun account wellFormed succeeded => ?_)
  · rcases account.removeAssociatedKey_cases accountHash with refused | ⟨-, passed⟩
    · rw [refused]
    · rw [passed] at failed ⊢
      simp only [AssociatedKeys.unchanged_of_removeKey_error failed]
  · rcases account.removeAssociatedKey_cases accountHash with refused | ⟨allowed, passed⟩
    · simp [refused] at succeeded
    · rw [passed] at succeeded ⊢
      obtain ⟨present, remaining⟩ := AssociatedKeys.removeKey_of_ok succeeded
      -- the key was there, so the check let the call through only with enough weight left
      have enough := allowed ((account.associatedKeys.containsKey_iff accountHash).mpr present)
      have capped := account.associatedKeys.totalKeysWeightExcluding_toNat accountHash
      simp only [canRemoveKey, Bool.and_eq_true, decide_eq_true_eq, ge_iff_le,
        UInt8.le_iff_toNat_le] at enough
      exact ⟨wellFormed.deployment_le, by simp only [remaining]; omega⟩

theorem updateAssociatedKey_keeps (accountHash : κ) (weight : UInt8) :
    KeepsWellFormed fun account : Account κ => account.updateAssociatedKey accountHash weight := by
  refine KeepsWellFormed.of_ok (fun account error failed => ?_) (fun account wellFormed succeeded => ?_)
  · rcases account.updateAssociatedKey_cases accountHash weight with refused | ⟨-, passed⟩
    · rw [refused]
    · rw [passed] at failed ⊢
      simp only [AssociatedKeys.unchanged_of_updateKey_error failed]
  · rcases account.updateAssociatedKey_cases accountHash weight with refused | ⟨allowed, passed⟩
    · simp [refused] at succeeded
    · rw [passed] at succeeded ⊢
      obtain ⟨present, replaced⟩ := AssociatedKeys.updateKey_of_ok succeeded
      obtain ⟨current, found⟩ : ∃ current, account.associatedKeys.get accountHash = some current :=
        Option.isSome_iff_exists.mp ((account.associatedKeys.containsKey_iff accountHash).mpr present)
      have before := account.associatedKeys.exactTotalWeight_split (AssocList.mem_of_lookup_eq_some found)
      have := wellFormed.keyManagement_le
      refine ⟨wellFormed.deployment_le, ?_⟩
      simp only [replaced]
      -- either the weight does not go down, or the check found enough weight with it
      by_cases lowered : weight < current
      · have enough := allowed current found lowered
        have capped := account.associatedKeys.totalKeysWeightExcluding_toNat accountHash
        simp only [canUpdateKey, Bool.and_eq_true, decide_eq_true_eq, ge_iff_le, UInt8.le_iff_toNat_le,
          saturatingAdd_toNat] at enough
        omega
      · have raised : current.toNat ≤ weight.toNat := by
          simpa [UInt8.lt_iff_toNat_lt] using lowered
        omega

theorem setActionThreshold_keeps (actionType : ActionType) (weight : UInt8) :
    KeepsWellFormed fun account : Account κ => account.setActionThreshold actionType weight := by
  refine KeepsWellFormed.of_ok (fun account error failed => ?_) (fun account wellFormed succeeded => ?_)
  · rcases account.setActionThreshold_cases actionType weight with ⟨_, refused⟩ | ⟨-, passed⟩
    · rw [refused]
    · rw [passed] at failed ⊢
      simp only [ActionThresholds.setThreshold_unchanged_of_error failed]
  · rcases account.setActionThreshold_cases actionType weight with ⟨_, refused⟩ | ⟨covered, passed⟩
    · simp [refused] at succeeded
    · rw [passed] at succeeded ⊢
      obtain ⟨ordered, kept | replaced⟩ := ActionThresholds.setThreshold_of_ok succeeded
      · exact ⟨ordered, by simpa only [kept] using wellFormed.keyManagement_le⟩
      · refine ⟨ordered, ?_⟩
        simp only [replaced]
        omega

/-- The key-management entry points that a session can call on its own account. -/
inductive KeyManagementCall (κ : Type) where
  | addAssociatedKey (accountHash : κ) (weight : UInt8)
  | removeAssociatedKey (accountHash : κ)
  | updateAssociatedKey (accountHash : κ) (weight : UInt8)
  | setActionThreshold (actionType : ActionType) (weight : UInt8)

def call (account : Account κ) : KeyManagementCall κ → Account κ
  | .addAssociatedKey accountHash weight => (account.addAssociatedKey accountHash weight).1
  | .removeAssociatedKey accountHash => (account.removeAssociatedKey accountHash).1
  | .updateAssociatedKey accountHash weight => (account.updateAssociatedKey accountHash weight).1
  | .setActionThreshold actionType weight => (account.setActionThreshold actionType weight).1

def run (account : Account κ) (calls : List (KeyManagementCall κ)) : Account κ := calls.foldl call account

theorem call_wellFormed {account : Account κ} (wellFormed : account.WellFormed) (keyCall : KeyManagementCall κ) :
    (account.call keyCall).WellFormed := by
  cases keyCall with
  | addAssociatedKey accountHash weight => exact (addAssociatedKey_keeps accountHash weight).keeps account wellFormed
  | removeAssociatedKey accountHash => exact (removeAssociatedKey_keeps accountHash).keeps account wellFormed
  | updateAssociatedKey accountHash weight =>
    exact (updateAssociatedKey_keeps accountHash weight).keeps account wellFormed
  | setActionThreshold actionType weight => exact (setActionThreshold_keeps actionType weight).keeps account wellFormed

theorem run_wellFormed {account : Account κ} (wellFormed : account.WellFormed) (calls : List (KeyManagementCall κ)) :
    (account.run calls).WellFormed := by
  induction calls generalizing account with
  | nil => exact wellFormed
  | cons keyCall rest ih => exact ih (call_wellFormed wellFormed keyCall)

/-- All the associated keys together carry both thresholds of a well-formed account: their
saturated sum is the exact one capped at 255, and a threshold is a weight, so at most 255. -/
theorem can_act_with_all_keys {account : Account κ} (wellFormed : account.WellFormed) :
    account.canDeployWith account.associatedKeys.keys = true ∧
      account.canManageKeysWith account.associatedKeys.keys = true := by
  have total := account.associatedKeys.totalKeysWeight_toNat
  have bounded := account.actionThresholds.keyManagement.toNat_lt
  have := wellFormed.deployment_le
  have := wellFormed.keyManagement_le
  simp only [canDeployWith, canManageKeysWith, AssociatedKeys.calculateKeysWeight, ge_iff_le,
    decide_eq_true_eq, UInt8.le_iff_toNat_le]
  rw [AssociatedKeys.totalKeysWeight] at total
  omega

theorem key_management_never_locks_out :
    (∀ accountHash : κ, (create accountHash).WellFormed) ∧
      (∀ (accountHash : κ) weight, KeepsWellFormed fun account : Account κ => account.addAssociatedKey accountHash weight) ∧
      (∀ accountHash : κ, KeepsWellFormed fun account : Account κ => account.removeAssociatedKey accountHash) ∧
      (∀ (accountHash : κ) weight,
        KeepsWellFormed fun account : Account κ => account.updateAssociatedKey accountHash weight) ∧
      (∀ actionType weight, KeepsWellFormed fun account : Account κ => account.setActionThreshold actionType weight) ∧
      ∀ (account : Account κ) calls, account.WellFormed →
        (account.run calls).canDeployWith (account.run calls).associatedKeys.keys = true ∧
          (account.run calls).canManageKeysWith (account.run calls).associatedKeys.keys = true :=
  ⟨create_wellFormed, addAssociatedKey_keeps, removeAssociatedKey_keeps, updateAssociatedKey_keeps,
    setActionThreshold_keeps, fun _ calls wellFormed => can_act_with_all_keys (run_wellFormed wellFormed calls)⟩

/-- A run from a new account that raises the key-management threshold to the whole weight and
then tries to remove a key: the removal is refused, and the account can still act. -/
theorem key_management_never_locks_out_after_refused_removal :
    let account := (create (0 : Nat)).run
      [.addAssociatedKey 1 2, .setActionThreshold .keyManagement 3, .removeAssociatedKey 0]
    account.canDeployWith account.associatedKeys.keys = true ∧
      account.canManageKeysWith account.associatedKeys.keys = true :=
  (@key_management_never_locks_out Nat _).2.2.2.2.2 _ _ (create_wellFormed 0)

example :
    ((create (0 : Nat)).run [.addAssociatedKey 1 2, .setActionThreshold .keyManagement 3,
      .removeAssociatedKey 0]).associatedKeys.keys = [0, 1] := by
  decide

end Account

end CasperTypes
