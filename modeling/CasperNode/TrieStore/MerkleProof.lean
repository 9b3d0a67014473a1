import CasperNode.TrieStore.Refinement

/-!
Merkle proofs of the trie (`storage::trie::merkle_proof`, `read_with_proof`). Reading a
key with a proof records, for each node and extension passed on the way down, the trie
with a hole where the path continues; the proof's steps come deepest first. Folding them
from the leaf up, each step's trie with the pointer to the step below in its hole,
reproduces every trie on the path, so the last hash is the root's.

`compute_state_hash` hashes a step's trie with `Digest::hash` of its bytes, while
`Trie::trie_hash` takes `Digest::hash_into_chunks_if_necessary`; the two agree on byte
strings of at most `CHUNK_SIZE_BYTES` (8 MiB). `stepHash` stands for the first, and the
results below assume it agrees with `trieHash` on nodes and extensions.
-/

namespace TrieStore

open ContentStore

variable {κ ν δ : Type}

inductive TrieMerkleProofStep (δ : Type) where
  | node (holeIndex : UInt8) (indexedPointersWithHole : List (UInt8 × Pointer δ))
  | extension (affix : List UInt8)
  deriving DecidableEq

structure TrieMerkleProof (κ ν δ : Type) where
  key : κ
  value : ν
  proofSteps : List (TrieMerkleProofStep δ)

def ReadResult.map {α β : Type} (f : α → β) : ReadResult α → ReadResult β
  | .found value => .found (f value)
  | .notFound => .notFound
  | .rootNotFound => .rootNotFound

section ReadWithProof

variable [DecidableEq κ] (store : δ → Option (Trie κ ν δ)) (key : κ) (path : List UInt8)

/-- The loop of `read_with_proof`, `read`'s loop with a step pushed to the front of
`proofSteps` at each node and extension passed. -/
def readWithProofFrom :
    Nat → Nat → Trie κ ν δ → List (TrieMerkleProofStep δ) → Option (ReadResult (TrieMerkleProof κ ν δ))
  | 0, _, _, _ => none
  | _ + 1, _, .leaf leafKey value, proofSteps =>
    some (if key ≠ leafKey then .notFound else .found ⟨leafKey, value, proofSteps⟩)
  | fuel + 1, depth, .node pointerBlock, proofSteps =>
    if h : depth < path.length then
      match pointerBlock.get path[depth] with
      | some pointer =>
        match store pointer.hash with
        | some next =>
          readWithProofFrom fuel (depth + 1) next
            (.node path[depth] (pointerBlock.asIndexedPointers.filter fun entry => entry.1 ≠ path[depth]) ::
              proofSteps)
        | none => some .notFound
      | none => some .notFound
    else none
  | fuel + 1, depth, .extension affix pointer, proofSteps =>
    if depth + affix.length ≤ path.length then
      if (path.drop depth).take affix.length = affix then
        match store pointer.hash with
        | some next => readWithProofFrom fuel (depth + affix.length) next (.extension affix :: proofSteps)
        | none => some .notFound
      else some .notFound
    else none

end ReadWithProof

def readWithProof [DecidableEq κ] (ctx : TrieContext κ ν δ) (store : δ → Option (Trie κ ν δ)) (root : δ)
    (key : κ) : Option (ReadResult (TrieMerkleProof κ ν δ)) :=
  match store root with
  | none => some .rootNotFound
  | some current =>
    readWithProofFrom store key (ctx.keyBytes key) ((ctx.keyBytes key).length + 1) 0 current []

/-- The trie a step stands for, with `pointer` in its hole. -/
def TrieMerkleProofStep.trie : TrieMerkleProofStep δ → Pointer δ → Trie κ ν δ
  | .node holeIndex indexedPointersWithHole, pointer =>
    .node (PointerBlock.fromIndexedPointers (indexedPointersWithHole ++ [(holeIndex, pointer)]))
  | .extension affix, pointer => .extension affix pointer

/-- One step of `compute_state_hash`: from the pointer below to the pointer to the step's trie. -/
def TrieMerkleProofStep.pointerAbove (stepHash : Trie κ ν δ → δ) (pointer : Pointer δ)
    (step : TrieMerkleProofStep δ) : Pointer δ :=
  .nodePointer (stepHash (step.trie pointer))

/-- `compute_state_hash`: the first step sees a `LeafPointer` to the leaf's hash, every
later one a `NodePointer` to the hash of the step before. -/
def TrieMerkleProof.computeStateHash (ctx : TrieContext κ ν δ) (stepHash : Trie κ ν δ → δ)
    (proof : TrieMerkleProof κ ν δ) : δ :=
  (proof.proofSteps.foldl (TrieMerkleProofStep.pointerAbove stepHash)
    (.leafPointer (ctx.trieHash (.leaf proof.key proof.value)))).hash

section Simulation

variable [DecidableEq κ] {store : δ → Option (Trie κ ν δ)} {key : κ} {path : List UInt8}

/-- Reading with a proof answers as `read` does, the proof carrying the value found. By
induction on the fuel, one case per kind of trie. -/
theorem readWithProofFrom_map_value (fuel depth : Nat) (trie : Trie κ ν δ) (proofSteps : List (TrieMerkleProofStep δ)) :
    (readWithProofFrom store key path fuel depth trie proofSteps).map (ReadResult.map TrieMerkleProof.value) =
      readFrom store key path fuel depth trie := by
  induction fuel generalizing depth trie proofSteps with
  | zero => rfl
  | succ fuel ih =>
    cases trie with
    | leaf leafKey value =>
      by_cases same : key = leafKey <;> simp [readWithProofFrom, readFrom, same, ReadResult.map]
    | node pointerBlock =>
      simp only [readWithProofFrom, readFrom]
      split_ifs with shorter
      · cases pointerBlock.get path[depth] with
        | none => rfl
        | some pointer =>
          dsimp only
          cases store pointer.hash with
          | none => rfl
          | some next => exact ih _ _ _
      · rfl
    | extension affix pointer =>
      simp only [readWithProofFrom, readFrom]
      split_ifs with fits onAffix
      · cases store pointer.hash with
        | none => rfl
        | some next => exact ih _ _ _
      · rfl
      · rfl

theorem exists_fuel_succ_of_readWithProofFrom {fuel depth : Nat} {trie : Trie κ ν δ}
    {proofSteps : List (TrieMerkleProofStep δ)} {result : ReadResult (TrieMerkleProof κ ν δ)}
    (answered : readWithProofFrom store key path fuel depth trie proofSteps = some result) :
    ∃ rest, fuel = rest + 1 := by
  cases fuel with
  | zero => cases answered
  | succ fuel => exact ⟨fuel, rfl⟩

theorem readWithProof_map_value (ctx : TrieContext κ ν δ) (root : δ) (key : κ) :
    (readWithProof ctx store root key).map (ReadResult.map TrieMerkleProof.value) = read ctx store root key := by
  unfold readWithProof read
  cases store root with
  | none => rfl
  | some current => exact readWithProofFrom_map_value _ _ _ _

theorem read_eq_found_iff {ctx : TrieContext κ ν δ} {root : δ} {value : ν} :
    read ctx store root key = some (.found value) ↔
      ∃ proof, readWithProof ctx store root key = some (.found proof) ∧ proof.value = value := by
  rw [← readWithProof_map_value]
  constructor
  · intro found
    obtain ⟨result, answered, mapped⟩ := Option.map_eq_some_iff.mp found
    cases result with
    | found proof => exact ⟨proof, answered, by simpa [ReadResult.map] using mapped⟩
    | notFound => cases mapped
    | rootNotFound => cases mapped
  · rintro ⟨proof, answered, rfl⟩
    rw [answered]
    rfl

end Simulation

section Verify

variable [DecidableEq κ] {ctx : TrieContext κ ν δ} {store : δ → Option (Trie κ ν δ)} (stepHash : Trie κ ν δ → δ)
  (unchunked : ∀ trie : Trie κ ν δ, (∀ key value, trie ≠ .leaf key value) → stepHash trie = ctx.trieHash trie)

theorem fromIndexedPointers_withHole {pointerBlock : PointerBlock δ} {index : UInt8} {pointer : Pointer δ}
    (found : pointerBlock.get index = some pointer) :
    PointerBlock.fromIndexedPointers
      (pointerBlock.asIndexedPointers.filter (fun entry => entry.1 ≠ index) ++ [(index, pointer)]) = pointerBlock := by
  refine PointerBlock.fromIndexedPointers_eq fun entry => ?_
  obtain ⟨other, pointer'⟩ := entry
  by_cases same : other = index
  · subst same
    simp [found, eq_comm]
  · simp [PointerBlock.mem_asIndexedPointers, same]

include unchunked

/-- The completeness of proofs: a proof read from a trie that holds its entries starts with
steps that, folded from the leaf up, give the pointer to that trie. By induction on the
invariant; each node and extension passed adds one step to the front. -/
theorem Holds.readWithProofFrom {path : List UInt8} {trie : Trie κ ν δ} {entries : κ → Option ν}
    (holds : Holds ctx store path trie entries) {key : κ} (fuel : Nat) (proofSteps : List (TrieMerkleProofStep δ))
    {proof : TrieMerkleProof κ ν δ}
    (answered : readWithProofFrom store key (ctx.keyBytes key) fuel path.length trie proofSteps = some (.found proof)) :
    proof.key = key ∧ ∃ inner, proof.proofSteps = inner ++ proofSteps ∧
      inner.foldl (TrieMerkleProofStep.pointerAbove stepHash) (.leafPointer (ctx.trieHash (.leaf proof.key proof.value))) =
        trie.pointerTo (ctx.trieHash trie) := by
  induction holds generalizing fuel proofSteps with
  | @leaf path leafKey value onPath =>
    obtain ⟨fuel, rfl⟩ := exists_fuel_succ_of_readWithProofFrom answered
    by_cases same : key = leafKey
    · subst same
      simp only [TrieStore.readWithProofFrom, ne_eq, not_true_eq_false, ↓reduceIte, Option.some.injEq,
        ReadResult.found.injEq] at answered
      subst answered
      exact ⟨rfl, [], by simp, rfl⟩
    · simp [TrieStore.readWithProofFrom, same] at answered
  | @node path pointerBlock entries linked child vacant below branching ih =>
    obtain ⟨fuel, rfl⟩ := exists_fuel_succ_of_readWithProofFrom answered
    simp only [TrieStore.readWithProofFrom] at answered
    split_ifs at answered with shorter
    -- the read went on below the index the key takes here
    cases found : pointerBlock.get (ctx.keyBytes key)[path.length] with
    | none => simp [found] at answered
    | some pointer =>
      obtain ⟨next, stored, tagged⟩ := linked _ pointer found
      simp only [found, stored] at answered
      have deeper : path.length + 1 = (path ++ [(ctx.keyBytes key)[path.length]]).length := by simp
      rw [deeper] at answered
      obtain ⟨sameKey, inner, steps, rebuilt⟩ :=
        ih _ pointer next found stored fuel _ answered
      refine ⟨sameKey, inner ++ [_], by rw [steps, List.append_assoc, List.singleton_append], ?_⟩
      rw [List.foldl_append, rebuilt, ← tagged, List.foldl_cons, List.foldl_nil]
      simp only [TrieMerkleProofStep.pointerAbove, TrieMerkleProofStep.trie, fromIndexedPointers_withHole found,
        Trie.pointerTo_node]
      rw [unchunked _ (by simp)]
  | @extension path affix pointerBlock entries notRoot nonempty linked target ih =>
    obtain ⟨fuel, rfl⟩ := exists_fuel_succ_of_readWithProofFrom answered
    simp only [TrieStore.readWithProofFrom, Pointer.hash_nodePointer, linked] at answered
    split_ifs at answered with fits onAffix
    swap
    · cases answered
    rw [← List.length_append] at answered
    obtain ⟨sameKey, inner, steps, rebuilt⟩ := ih fuel _ answered
    refine ⟨sameKey, inner ++ [.extension affix], by rw [steps, List.append_assoc, List.singleton_append], ?_⟩
    rw [List.foldl_append, rebuilt, List.foldl_cons, List.foldl_nil]
    simp only [TrieMerkleProofStep.pointerAbove, TrieMerkleProofStep.trie, Trie.pointerTo_node,
      Trie.pointerTo_extension]
    rw [unchunked _ (by simp)]

theorem read_with_proof_verifies {root : δ} (wellFormed : WellFormed ctx store root) (key : κ) :
    (∀ value, read ctx store root key = some (.found value) ↔
      ∃ proof, readWithProof ctx store root key = some (.found proof) ∧ proof.value = value) ∧
    (∀ proof, readWithProof ctx store root key = some (.found proof) →
      proof.key = key ∧ proof.computeStateHash ctx stepHash = root) := by
  refine ⟨fun value => read_eq_found_iff, fun proof answered => ?_⟩
  obtain ⟨entries, pointerBlock, rootEq, stored, holds⟩ := wellFormed
  simp only [readWithProof, stored] at answered
  obtain ⟨sameKey, inner, steps, rebuilt⟩ := holds.readWithProofFrom stepHash unchunked _ [] answered
  refine ⟨sameKey, ?_⟩
  rw [TrieMerkleProof.computeStateHash, steps, List.append_nil, rebuilt, Trie.pointerTo_node,
    Pointer.hash_nodePointer, rootEq]

end Verify

/-- On the store of two keys under an extension, the proof of a key climbs the leaf, the node
below the extension, the extension and the root node. -/
theorem read_with_proof_verifies_on_shared_prefix :
    ∃ store root, runOperations tripleContext sharedPrefixWrites (emptyStore tripleContext, emptyRoot tripleContext) =
        some (store, root) ∧ WellFormed tripleContext store root ∧
      (∃ proof, readWithProof tripleContext store root (1, 2, 4) = some (.found proof) ∧ proof.value = 6) ∧
      (∀ value, read tripleContext store root (1, 2, 4) = some (.found value) ↔
        ∃ proof, readWithProof tripleContext store root (1, 2, 4) = some (.found proof) ∧ proof.value = value) ∧
      (∀ proof, readWithProof tripleContext store root (1, 2, 4) = some (.found proof) →
        proof.key = (1, 2, 4) ∧ proof.computeStateHash tripleContext tripleContext.trieHash = root) := by
  obtain ⟨store, root, ran, rootHolds⟩ :=
    (rootHolds_empty tripleContext).runOperations tripleContext_sound sharedPrefixWrites
  have verifies := read_with_proof_verifies tripleContext.trieHash (fun _ _ => rfl) ⟨_, rootHolds⟩ (1, 2, 4)
  have found : read tripleContext store root (1, 2, 4) = some (.found 6) := by
    rw [rootHolds.read tripleContext_sound]
    rfl
  exact ⟨store, root, ran, ⟨_, rootHolds⟩, (verifies.1 6).mp found, verifies⟩

end TrieStore
