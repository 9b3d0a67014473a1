import CasperNode.TrieStore.Canonical
import CasperNode.ExecutionEngine.Transform

/-!
Committing effects to the trie store (`storage/global_state/mod.rs`). `commit` reads each
key of the effects at the current root, applies its transform to the value found (a
`Transform::Write` of an absent key gives its own value) and writes the result;
`put_stored_values` writes values as they are. Both go on from the root each write
returns. A failed commit aborts its transaction, so only the error comes back; `none`
stands for a storage error, which a well-formed root never gives. The effects and the
stored values are `HashMap`s, and a list stands for their order of iteration.

What the effects do to a map is `applyEffects`; `commitEffects_refines` says the loop of
`commit` computes it on every well-formed root.
-/

namespace GlobalState

open TrieStore

variable {κ ν δ τ ε : Type}

/-- A transform as a commit sees it: `Transform::apply`, and the value of a
`Transform::Write`, which `apply` returns whatever it is applied to. -/
structure TransformOps (τ ν ε : Type) where
  apply : τ → ν → Except ε ν
  written : τ → Option ν
  apply_of_written : ∀ {transform value}, written transform = some value →
    ∀ current, apply transform current = .ok value

/-- The transforms of the execution engine. -/
def transformOps (κ : Type) :
    TransformOps (ExecutionTransform.Transform κ) (ExecutionTransform.StoredValue κ) ExecutionTransform.Error where
  apply := ExecutionTransform.Transform.apply
  written
    | .write value => some value
    | _ => none
  apply_of_written {transform value} written current := by
    cases transform with
    | write newValue =>
      obtain rfl : newValue = value := Option.some.inj written
      rfl
    | _ => cases written

/-- `CommitError`, without `TrieNotFoundInCache`, which no commit returns. -/
inductive CommitError (κ δ ε : Type) where
  | rootNotFound (root : δ)
  | readRootNotFound (root : δ)
  | writeRootNotFound (root : δ)
  | keyNotFound (key : κ)
  | transformError (error : ε)
  deriving DecidableEq, Repr

@[simp] theorem mapError_ok {α β γ : Type} (f : α → β) (value : γ) :
    (Except.ok value : Except α γ).mapError f = .ok value := rfl

section Effects

variable [DecidableEq κ] (ops : TransformOps τ ν ε)

/-- The value a transform leaves at a key holding `current`: a write needs nothing to act
on, any other transform needs a value. -/
def effectValue (key : κ) (current : Option ν) (transform : τ) : Except (CommitError κ δ ε) ν :=
  match current with
  | none =>
    match ops.written transform with
    | some newValue => .ok newValue
    | none => .error (.keyNotFound key)
  | some currentValue => (ops.apply transform currentValue).mapError .transformError

/-- What committing effects does to a map: each effect in turn sets its key to the value
its transform leaves, and the first that fails is the error. -/
def applyEffects : (κ → Option ν) → List (κ × τ) → Except (CommitError κ δ ε) (κ → Option ν)
  | entries, [] => .ok entries
  | entries, (key, transform) :: effects =>
    match effectValue ops key (entries key) transform with
    | .error error => .error error
    | .ok value => applyEffects (Function.update entries key (some value)) effects

@[simp] theorem applyEffects_nil (entries : κ → Option ν) :
    (applyEffects ops entries [] : Except (CommitError κ δ ε) _) = .ok entries := rfl

/-- The match of `commit` on what `read` found and on the transform. -/
def commitValue (stateRoot : δ) (key : κ) : ReadResult ν → τ → Except (CommitError κ δ ε) ν
  | .notFound, transform =>
    match ops.written transform with
    | some newValue => .ok newValue
    | none => .error (.keyNotFound key)
  | .found currentValue, transform => (ops.apply transform currentValue).mapError .transformError
  | .rootNotFound, _ => .error (.readRootNotFound stateRoot)

omit [DecidableEq κ] in
theorem commitValue_ofEntry (stateRoot : δ) (key : κ) (current : Option ν) (transform : τ) :
    commitValue ops stateRoot key (.ofEntry current) transform = effectValue ops key current transform := by
  cases current <;> rfl

end Effects

section Loops

variable [DecidableEq κ] [DecidableEq ν] [DecidableEq δ] (ctx : TrieContext κ ν δ)

/-- A `write` of a commit loop and the match on its result: the loop goes on from the root
written, or from the same root when the value was there already. -/
def writeStep (store : δ → Option (Trie κ ν δ)) (stateRoot : δ) (key : κ) (value : ν) :
    Option (Except (CommitError κ δ ε) ((δ → Option (Trie κ ν δ)) × δ)) :=
  match write ctx store stateRoot key value with
  | none => none
  | some (.written rootHash, store') => some (.ok (store', rootHash))
  | some (.alreadyExists, store') => some (.ok (store', stateRoot))
  | some (.rootNotFound, _) => some (.error (.writeRootNotFound stateRoot))

variable (ops : TransformOps τ ν ε)

/-- The loop of `commit` over the effects. -/
def commitEffects : (δ → Option (Trie κ ν δ)) → δ → List (κ × τ) →
    Option (Except (CommitError κ δ ε) ((δ → Option (Trie κ ν δ)) × δ))
  | store, stateRoot, [] => some (.ok (store, stateRoot))
  | store, stateRoot, (key, transform) :: effects => do
    let readResult ← read ctx store stateRoot key
    match commitValue ops stateRoot key readResult transform with
    | .error error => some (.error error)
    | .ok value =>
      match writeStep ctx store stateRoot key value with
      | none => none
      | some (.error error) => some (.error error)
      | some (.ok (store', stateRoot')) => commitEffects store' stateRoot' effects

/-- `commit`: a missing pre-state root stops it before the loop. -/
def commit (store : δ → Option (Trie κ ν δ)) (prestateHash : δ) (effects : List (κ × τ)) :
    Option (Except (CommitError κ δ ε) ((δ → Option (Trie κ ν δ)) × δ)) :=
  match store prestateHash with
  | none => some (.error (.rootNotFound prestateHash))
  | some _ => commitEffects ctx ops store prestateHash effects

/-- The loop of `put_stored_values`. -/
def putStoredValuesFrom : (δ → Option (Trie κ ν δ)) → δ → List (κ × ν) →
    Option (Except (CommitError κ δ ε) ((δ → Option (Trie κ ν δ)) × δ))
  | store, stateRoot, [] => some (.ok (store, stateRoot))
  | store, stateRoot, (key, value) :: storedValues =>
    match writeStep ctx store stateRoot key value with
    | none => none
    | some (.error error) => some (.error error)
    | some (.ok (store', stateRoot')) => putStoredValuesFrom store' stateRoot' storedValues

/-- `put_stored_values`. -/
def putStoredValues (store : δ → Option (Trie κ ν δ)) (prestateHash : δ) (storedValues : List (κ × ν)) :
    Option (Except (CommitError κ δ ε) ((δ → Option (Trie κ ν δ)) × δ)) :=
  match store prestateHash with
  | none => some (.error (.rootNotFound prestateHash))
  | some _ => putStoredValuesFrom ctx store prestateHash storedValues

end Loops

/-- A commit's result against what the effects do to the map: the same error, or a
well-formed root holding the map they leave. -/
def Refines [DecidableEq κ] (ctx : TrieContext κ ν δ) :
    Except (CommitError κ δ ε) (κ → Option ν) → Except (CommitError κ δ ε) ((δ → Option (Trie κ ν δ)) × δ) → Prop
  | .error error, .error error' => error = error'
  | .ok entries, .ok (store, root) => RootHolds ctx store root entries
  | _, _ => False

section Refines

variable [DecidableEq κ] {ctx : TrieContext κ ν δ}

@[simp] theorem refines_error_iff {error : CommitError κ δ ε}
    {result : Except (CommitError κ δ ε) ((δ → Option (Trie κ ν δ)) × δ)} :
    Refines ctx (.error error) result ↔ result = .error error := by
  rcases result with error' | ⟨store, root⟩
  · simp [Refines, eq_comm]
  · simp [Refines]

@[simp] theorem refines_ok_iff {entries : κ → Option ν}
    {result : Except (CommitError κ δ ε) ((δ → Option (Trie κ ν δ)) × δ)} :
    Refines ctx (.ok entries) result ↔ ∃ store root, result = .ok (store, root) ∧ RootHolds ctx store root entries := by
  rcases result with error' | ⟨store, root⟩
  · simp [Refines]
  · simp [Refines]

end Refines

section Sound

variable [DecidableEq κ] [DecidableEq ν] [DecidableEq δ] {ctx : TrieContext κ ν δ} (sound : ctx.Sound)
  {store : δ → Option (Trie κ ν δ)}
include sound

variable (ε) in
/-- The step lemma of both loops: a write on a well-formed root goes on from a well-formed
root holding the map with the key set. -/
theorem writeStep_of_rootHolds {root : δ} {entries : κ → Option ν} (rootHolds : RootHolds ctx store root entries)
    (key : κ) (value : ν) :
    ∃ store' root', (writeStep ctx store root key value : Option (Except (CommitError κ δ ε) _)) =
        some (.ok (store', root')) ∧ RootHolds ctx store' root' (Function.update entries key (some value)) := by
  obtain ⟨result, store', root', written, outcome, rootHolds', -⟩ := rootHolds.write sound key value
  rcases outcome with rfl | ⟨rfl, rfl, rfl⟩
  · exact ⟨store', root', by simp [writeStep, written], rootHolds'⟩
  · exact ⟨_, _, by simp [writeStep, written], rootHolds'⟩

/-- The run lemma of `commit`: on a well-formed root the loop computes `applyEffects`. By
induction on the effects, with the store, the root and the map generalized. -/
theorem commitEffects_refines (ops : TransformOps τ ν ε) {root : δ} {entries : κ → Option ν}
    (rootHolds : RootHolds ctx store root entries) (effects : List (κ × τ)) :
    ∃ result, commitEffects ctx ops store root effects = some result ∧
      Refines ctx (applyEffects ops entries effects) result := by
  induction effects generalizing store root entries with
  | nil => exact ⟨_, rfl, rootHolds⟩
  | cons effect effects ih =>
    obtain ⟨key, transform⟩ := effect
    have answered : commitValue ops root key (.ofEntry (entries key)) transform =
        effectValue ops key (entries key) transform := commitValue_ofEntry ops root key _ transform
    cases valued : effectValue ops key (entries key) transform with
    | error error =>
      refine ⟨.error error, ?_, ?_⟩
      · simp [commitEffects, rootHolds.read sound key, answered, valued]
      · simp [applyEffects, valued, Refines]
    | ok value =>
      obtain ⟨store', root', stepped, rootHolds'⟩ := writeStep_of_rootHolds ε sound rootHolds key value
      obtain ⟨result, committed, refines⟩ := ih rootHolds'
      refine ⟨result, ?_, by simpa [applyEffects, valued] using refines⟩
      simp [commitEffects, rootHolds.read sound key, answered, valued, stepped, committed]

theorem commit_refines (ops : TransformOps τ ν ε) {root : δ} {entries : κ → Option ν}
    (rootHolds : RootHolds ctx store root entries) (effects : List (κ × τ)) :
    ∃ result, commit ctx ops store root effects = some result ∧
      Refines ctx (applyEffects ops entries effects) result := by
  obtain ⟨pointerBlock, stored⟩ := rootHolds.stored
  simpa [commit, stored] using commitEffects_refines sound ops rootHolds effects

variable (ε) in
theorem putStoredValuesFrom_of_rootHolds {root : δ} {entries : κ → Option ν}
    (rootHolds : RootHolds ctx store root entries) (storedValues : List (κ × ν)) :
    ∃ store' root', (putStoredValuesFrom ctx store root storedValues : Option (Except (CommitError κ δ ε) _)) =
        some (.ok (store', root')) ∧
      RootHolds ctx store' root' (Operation.applyAll (Operation.writeAll storedValues) entries) := by
  induction storedValues generalizing store root entries with
  | nil => exact ⟨store, root, rfl, rootHolds⟩
  | cons storedValue storedValues ih =>
    obtain ⟨key, value⟩ := storedValue
    obtain ⟨store', root', stepped, rootHolds'⟩ := writeStep_of_rootHolds ε sound rootHolds key value
    obtain ⟨store'', root'', written, rootHolds''⟩ := ih rootHolds'
    exact ⟨store'', root'', by simp [putStoredValuesFrom, stepped, written], rootHolds''⟩

variable (ε) in
theorem putStoredValues_of_rootHolds {root : δ} {entries : κ → Option ν}
    (rootHolds : RootHolds ctx store root entries) (storedValues : List (κ × ν)) :
    ∃ store' root', (putStoredValues ctx store root storedValues : Option (Except (CommitError κ δ ε) _)) =
        some (.ok (store', root')) ∧
      RootHolds ctx store' root' (Operation.applyAll (Operation.writeAll storedValues) entries) := by
  obtain ⟨pointerBlock, stored⟩ := rootHolds.stored
  simpa [putStoredValues, stored] using putStoredValuesFrom_of_rootHolds ε sound rootHolds storedValues

end Sound

end GlobalState
