import Mathlib
import CasperNode.Lib.TreeFold

/-!
Indexed Merkle proofs (`hashing/src/indexed_merkle_proof.rs`) and the Merkle tree digest of
`Digest` (`hashing/src/lib.rs`). The digest functions are parameters: BLAKE2b of bytes and
of a pair of digests, the hash of a leaf count with a raw root behind the zeroed-chunk
padding, and the sentinel of an empty tree. Counts and indices are `u64`, which is `usize`
here; a count is the length of a slice, so the `u64` path of `root_hash` never runs out of
bits.

`IndexedMerkleProof::new` folds the leaves with `tree_fold1`, carrying the proof from the
leaf at `index` up and adding the root of the sibling subtree at each level; `root_hash`
computes the path to that leaf bit by bit and hashes the proof back up along it.
`treeFold1_markLeaves` says the two meet: the proof climbs to the root of the tree.
-/

namespace CasperHashing

open TreeFold

variable {δ β : Type}

/-- The associated functions of `Digest`, over a type `δ` of digests. -/
structure Digest (δ : Type) where
  blake2bHash : List UInt8 → δ
  hashPair : δ → δ → δ
  hashMerkleRoot : Nat → δ → δ
  SENTINEL_MERKLE_TREE : δ

def Digest.hashMerkleTree (digest : Digest δ) (leaves : List δ) : δ :=
  match treeFold1 digest.hashPair leaves with
  | none => digest.SENTINEL_MERKLE_TREE
  | some rawRoot => digest.hashMerkleRoot leaves.length rawRoot

inductive HashOrProof (δ : Type) where
  | hash (hash : δ)
  | proof (proof : List δ)

/-- The closure `IndexedMerkleProof::new` gives `tree_fold1`; two proofs meeting is
`unreachable!()`, `none` here. -/
def HashOrProof.combine (hashPair : δ → δ → δ) :
    Option (HashOrProof δ) → Option (HashOrProof δ) → Option (HashOrProof δ)
  | some (.hash hashX), some (.hash hashY) => some (.hash (hashPair hashX hashY))
  | some (.hash sibling), some (.proof hashes) => some (.proof (hashes ++ [sibling]))
  | some (.proof hashes), some (.hash sibling) => some (.proof (hashes ++ [sibling]))
  | _, _ => none

/-- `leaves.enumerate().map(...)` from `position` on: the leaf at `index` starts the proof,
the others are hashes. -/
def markLeaves (index : Nat) : Nat → List δ → List (HashOrProof δ)
  | _, [] => []
  | position, hash :: leaves =>
    (if position = index then .proof [hash] else .hash hash) :: markLeaves index (position + 1) leaves

structure IndexedMerkleProof (δ : Type) where
  index : Nat
  count : Nat
  merkleProof : List δ

/-- `MerkleConstructionError`; `TooManyLeaves` needs more than `u64::MAX` leaves. -/
inductive MerkleConstructionError where
  | indexOutOfBounds (count index : Nat)
  deriving DecidableEq, Repr

/-- `IndexedMerkleProof::new`; `none` is the `unreachable!()`. -/
def IndexedMerkleProof.new (digest : Digest δ) (leaves : List δ) (index : Nat) :
    Option (Except MerkleConstructionError (IndexedMerkleProof δ)) :=
  match treeFold1 (HashOrProof.combine digest.hashPair) ((markLeaves index 0 leaves).map some) with
  | none | some (some (.hash _)) => some (.error (.indexOutOfBounds leaves.length index))
  | some (some (.proof merkleProof)) => some (.ok ⟨index, leaves.length, merkleProof⟩)
  | some none => none

/-- The `while n > 1` loop of `root_hash` and of `compute_expected_proof_length`: down to
the part of the tree that holds leaf `i`, stepping `acc` by `left` or `right`. Each turn
takes one of `fuel`, and the count is enough. -/
def descend (left right : β → β) : Nat → β → Nat → Nat → β
  | 0, acc, _, _ => acc
  | fuel + 1, acc, n, i =>
    if 1 < n then
      if i < pivot n then descend left right fuel (left acc) (pivot n) i
      else descend left right fuel (right acc) (n - pivot n) (i - pivot n)
    else acc

/-- The `path` of `root_hash`: a bit for each level, the root's highest, 1 meaning "hash right". -/
def rootPath (count index : Nat) : Nat :=
  descend (fun path => path <<< 1) (fun path => path <<< 1 ||| 1) count 0 count index

/-- The fold of `root_hash` over the proof after the leaf, taking the bits of the path from
the lowest. -/
def foldProof (hashPair : δ → δ → δ) : Nat → δ → List δ → δ
  | _, acc, [] => acc
  | path, acc, hash :: hashes =>
    foldProof hashPair (path >>> 1) (if path &&& 1 = 1 then hashPair hash acc else hashPair acc hash) hashes

def IndexedMerkleProof.rootHash (digest : Digest δ) (proof : IndexedMerkleProof δ) : δ :=
  match proof.merkleProof with
  | [] => digest.hashMerkleRoot proof.count digest.SENTINEL_MERKLE_TREE
  | leafHash :: hashes =>
    digest.hashMerkleRoot proof.count
      (foldProof digest.hashPair (rootPath proof.count proof.index) leafHash hashes)

def IndexedMerkleProof.computeExpectedProofLength (proof : IndexedMerkleProof δ) : Nat :=
  if proof.count = 0 then 0 else descend (· + 1) (· + 1) proof.count 1 proof.count proof.index

inductive MerkleVerificationError where
  | indexOutOfBounds (count index : Nat)
  | unexpectedProofLength (count index expectedProofLength actualProofLength : Nat)
  deriving DecidableEq, Repr

def IndexedMerkleProof.verify (proof : IndexedMerkleProof δ) : Except MerkleVerificationError Unit :=
  if proof.count ≤ proof.index then .error (.indexOutOfBounds proof.count proof.index)
  else if proof.merkleProof.length ≠ proof.computeExpectedProofLength then
    .error (.unexpectedProofLength proof.count proof.index proof.computeExpectedProofLength
      proof.merkleProof.length)
  else .ok ()

section Descend

variable {left right : β → β}

theorem descend_of_le_one {n : Nat} (atMostOne : n ≤ 1) (fuel : Nat) (acc : β) (i : Nat) :
    descend left right fuel acc n i = acc := by
  cases fuel <;> simp [descend, show ¬ 1 < n by omega]

/-- With enough turns the loop ends, and more turns change nothing. By induction on the fuel. -/
theorem descend_fuel {fuel fuel' n : Nat} (enough : n ≤ fuel) (enough' : n ≤ fuel') (acc : β) (i : Nat) :
    descend left right fuel acc n i = descend left right fuel' acc n i := by
  induction fuel generalizing fuel' acc n i with
  | zero => rw [descend_of_le_one (by omega), descend_of_le_one (by omega)]
  | succ fuel ih =>
    by_cases more : 1 < n
    · obtain ⟨fuel', rfl⟩ : ∃ rest, fuel' = rest + 1 := ⟨fuel' - 1, by omega⟩
      have below := pivot_lt more
      have positive := pivot_pos n
      simp only [descend, if_pos more]
      split_ifs
      · exact ih (by omega) (by omega) _ _
      · exact ih (by omega) (by omega) _ _
    · rw [descend_of_le_one (by omega), descend_of_le_one (by omega)]

theorem descend_left {n i : Nat} (more : 1 < n) (onLeft : i < pivot n) (acc : β) :
    descend left right n acc n i = descend left right (pivot n) (left acc) (pivot n) i := by
  obtain ⟨fuel, rfl⟩ : ∃ fuel, n = fuel + 1 := ⟨n - 1, by omega⟩
  have below := pivot_lt more
  rw [descend, if_pos more, if_pos onLeft]
  exact descend_fuel (by omega) (Nat.le_refl _) _ _

theorem descend_right {n i : Nat} (more : 1 < n) (onRight : pivot n ≤ i) (acc : β) :
    descend left right n acc n i =
      descend left right (n - pivot n) (right acc) (n - pivot n) (i - pivot n) := by
  obtain ⟨fuel, rfl⟩ : ∃ fuel, n = fuel + 1 := ⟨n - 1, by omega⟩
  have positive := pivot_pos (fuel + 1)
  rw [descend, if_pos more, if_neg (by omega)]
  exact descend_fuel (by omega) (Nat.le_refl _) _ _

theorem descend_count (fuel : Nat) (acc n i : Nat) :
    descend (· + 1) (· + 1) fuel acc n i = acc + descend (· + 1) (· + 1) fuel 0 n i := by
  induction fuel generalizing acc n i with
  | zero => simp [descend]
  | succ fuel ih =>
    simp only [descend]
    split_ifs
    · rw [ih (acc + 1), ih (0 + 1)]
      omega
    · rw [ih (acc + 1), ih (0 + 1)]
      omega
    · simp

theorem shiftLeft_one_or_one (path : Nat) : (path <<< 1 ||| 1) = 2 * path + 1 := by
  rw [← Nat.shiftLeft_add_eq_or_of_lt (by decide : 1 < 2 ^ 1), Nat.shiftLeft_eq]
  ring

theorem descend_path (fuel : Nat) (acc n i : Nat) :
    descend (fun path => path <<< 1) (fun path => path <<< 1 ||| 1) fuel acc n i =
      acc * 2 ^ descend (· + 1) (· + 1) fuel 0 n i +
        descend (fun path => path <<< 1) (fun path => path <<< 1 ||| 1) fuel 0 n i := by
  induction fuel generalizing acc n i with
  | zero => simp [descend]
  | succ fuel ih =>
    simp only [descend]
    split_ifs
    · rw [ih, ih (0 <<< 1), descend_count fuel (0 + 1), Nat.shiftLeft_eq, Nat.shiftLeft_eq]
      ring
    · rw [ih, ih (0 <<< 1 ||| 1), descend_count fuel (0 + 1), shiftLeft_one_or_one, shiftLeft_one_or_one]
      ring
    · simp

theorem descend_path_lt (fuel : Nat) (n i : Nat) :
    descend (fun path => path <<< 1) (fun path => path <<< 1 ||| 1) fuel 0 n i <
      2 ^ descend (· + 1) (· + 1) fuel 0 n i := by
  induction fuel generalizing n i with
  | zero => simp [descend]
  | succ fuel ih =>
    simp only [descend]
    split_ifs
    · rw [descend_path fuel (0 <<< 1), descend_count fuel (0 + 1)]
      have lower := ih (pivot n) i
      have grows : 2 ^ descend (· + 1) (· + 1) fuel 0 (pivot n) i ≤
          2 ^ (1 + descend (· + 1) (· + 1) fuel 0 (pivot n) i) := Nat.pow_le_pow_right (by decide) (by omega)
      simp only [Nat.zero_shiftLeft, Nat.zero_mul, Nat.zero_add]
      omega
    · rw [descend_path fuel (0 <<< 1 ||| 1), descend_count fuel (0 + 1), shiftLeft_one_or_one]
      have lower := ih (n - pivot n) (i - pivot n)
      simp only [Nat.mul_zero, Nat.zero_add, Nat.one_mul, pow_add, pow_one] at lower ⊢
      omega
    · simp

end Descend

section Fold

variable (hashPair : δ → δ → δ)

@[simp] theorem foldProof_nil (path : Nat) (acc : δ) : foldProof hashPair path acc [] = acc := rfl

theorem foldProof_cons (path : Nat) (acc hash : δ) (hashes : List δ) :
    foldProof hashPair path acc (hash :: hashes) =
      foldProof hashPair (path / 2) (if path % 2 = 1 then hashPair hash acc else hashPair acc hash) hashes := by
  rw [foldProof, Nat.shiftRight_one, Nat.and_one_is_mod]

/-- The last hash of the proof is hashed by the bit of the path past the others. By
induction on the hashes before it. -/
theorem foldProof_append_singleton (path : Nat) (acc hash : δ) (hashes : List δ) :
    foldProof hashPair path acc (hashes ++ [hash]) =
      if path / 2 ^ hashes.length % 2 = 1 then hashPair hash (foldProof hashPair path acc hashes)
      else hashPair (foldProof hashPair path acc hashes) hash := by
  induction hashes generalizing path acc with
  | nil => simp [foldProof_cons]
  | cons first hashes ih =>
    rw [List.cons_append, foldProof_cons, foldProof_cons, ih, List.length_cons, Nat.div_div_eq_div_mul, pow_succ,
      Nat.mul_comm 2]

theorem foldProof_add_high (low high : Nat) (acc : δ) (hashes : List δ) :
    foldProof hashPair (low + 2 ^ hashes.length * high) acc hashes = foldProof hashPair low acc hashes := by
  induction hashes generalizing low acc with
  | nil => rfl
  | cons hash hashes ih =>
    have rewritten : low + 2 ^ (hashes.length + 1) * high = low + 2 * (2 ^ hashes.length * high) := by ring
    rw [List.length_cons, rewritten, foldProof_cons, foldProof_cons, Nat.add_mul_mod_self_left,
      Nat.add_mul_div_left _ _ (by decide), ih]

end Fold

section Marks

theorem length_markLeaves (index position : Nat) (leaves : List δ) :
    (markLeaves index position leaves).length = leaves.length := by
  induction leaves generalizing position with
  | nil => rfl
  | cons hash leaves ih => simp [markLeaves, ih]

theorem take_markLeaves (index position count : Nat) (leaves : List δ) :
    (markLeaves index position leaves).take count = markLeaves index position (leaves.take count) := by
  induction leaves generalizing position count with
  | nil => simp [markLeaves]
  | cons hash leaves ih =>
    cases count with
    | zero => simp [markLeaves]
    | succ count => simp [markLeaves, ih]

theorem drop_markLeaves (index position count : Nat) (leaves : List δ) :
    (markLeaves index position leaves).drop count = markLeaves index (position + count) (leaves.drop count) := by
  induction leaves generalizing position count with
  | nil => simp [markLeaves]
  | cons hash leaves ih =>
    cases count with
    | zero => simp
    | succ count =>
      rw [markLeaves, List.drop_succ_cons, List.drop_succ_cons, ih]
      congr 1
      omega

theorem markLeaves_of_outside {index position : Nat} {leaves : List δ}
    (outside : index < position ∨ position + leaves.length ≤ index) :
    markLeaves index position leaves = leaves.map HashOrProof.hash := by
  induction leaves generalizing position with
  | nil => rfl
  | cons hash leaves ih =>
    have notHere : position ≠ index := by
      simp only [List.length_cons] at outside
      omega
    rw [markLeaves, if_neg notHere, ih (by simp only [List.length_cons] at outside; omega), List.map_cons]

theorem treeFold1_hashes (hashPair : δ → δ → δ) (leaves : List δ) :
    treeFold1 (HashOrProof.combine hashPair) ((leaves.map HashOrProof.hash).map some) =
      (treeFold1 hashPair leaves).map fun root => some (HashOrProof.hash root) := by
  rw [List.map_map]
  exact treeFold1_map hashPair _ (fun root => some (HashOrProof.hash root)) (fun _ _ => rfl) leaves

end Marks

theorem length_descend_pos {n j : Nat} (two_le : 2 ≤ n) :
    descend (· + 1) (· + 1) n 0 n j =
      if j < pivot n then 1 + descend (· + 1) (· + 1) (pivot n) 0 (pivot n) j
      else 1 + descend (· + 1) (· + 1) (n - pivot n) 0 (n - pivot n) (j - pivot n) := by
  split_ifs with onLeft
  · rw [descend_left two_le onLeft, descend_count]
  · rw [descend_right two_le (by omega), descend_count]

/-- Below `2 ^ k` leaves, a leaf is at most `k` levels down. By induction on the fuel: each
turn goes into a part of at most half the power. -/
theorem descend_count_le (fuel : Nat) {n k : Nat} (i : Nat) (fits : n ≤ 2 ^ k) :
    descend (· + 1) (· + 1) fuel 0 n i ≤ k := by
  induction fuel generalizing n i k with
  | zero => simp [descend]
  | succ fuel ih =>
    by_cases more : 1 < n
    · obtain ⟨k, rfl⟩ : ∃ smaller, k = smaller + 1 := by
        cases k with
        | zero => simp at fits; omega
        | succ k => exact ⟨k, rfl⟩
      have leftFits := pivot_le_of_le_two_pow more fits
      have rightFits : n - pivot n ≤ 2 ^ k := Nat.le_trans (sub_pivot_le_pivot n) leftFits
      simp only [descend, if_pos more]
      split_ifs
      · have lower := ih i leftFits
        rw [descend_count fuel (0 + 1)]
        omega
      · have lower := ih (i - pivot n) rightFits
        rw [descend_count fuel (0 + 1)]
        omega
    · rw [descend_of_le_one (by omega)]
      omega

section Climb

variable (hashPair : δ → δ → δ) {n j : Nat} (two_le : 2 ≤ n) (leaf sibling : δ) {siblings : List δ}

include two_le

/-- When the leaf is in the left part, the top bit of the path is clear: the proof's last hash
goes on the right of the left part's root. -/
theorem foldProof_rootPath_left (onLeft : j < pivot n)
    (depth : siblings.length = descend (· + 1) (· + 1) (pivot n) 0 (pivot n) j) :
    foldProof hashPair (rootPath n j) leaf (siblings ++ [sibling]) =
      hashPair (foldProof hashPair (rootPath (pivot n) j) leaf siblings) sibling := by
  have samePath : rootPath n j = rootPath (pivot n) j := by
    rw [rootPath, rootPath, descend_left two_le onLeft, Nat.zero_shiftLeft]
  have topClear : rootPath (pivot n) j / 2 ^ siblings.length % 2 = 0 := by
    rw [depth, rootPath, Nat.div_eq_of_lt (descend_path_lt _ _ _)]
  rw [samePath, foldProof_append_singleton, topClear]
  simp

/-- When the leaf is in the right part, the top bit of the path is set, above the path in the
right part: the proof's last hash goes on the left of the right part's root. -/
theorem foldProof_rootPath_right (onRight : pivot n ≤ j)
    (depth : siblings.length = descend (· + 1) (· + 1) (n - pivot n) 0 (n - pivot n) (j - pivot n)) :
    foldProof hashPair (rootPath n j) leaf (siblings ++ [sibling]) =
      hashPair sibling (foldProof hashPair (rootPath (n - pivot n) (j - pivot n)) leaf siblings) := by
  have splitPath : rootPath n j = rootPath (n - pivot n) (j - pivot n) + 2 ^ siblings.length * 1 := by
    rw [rootPath, rootPath, descend_right two_le onRight, descend_path, shiftLeft_one_or_one, depth]
    ring
  have topSet : (rootPath (n - pivot n) (j - pivot n) + 2 ^ siblings.length * 1) / 2 ^ siblings.length % 2 = 1 := by
    rw [Nat.add_mul_div_left _ _ (Nat.two_pow_pos _), depth, rootPath, Nat.div_eq_of_lt (descend_path_lt _ _ _)]
  rw [splitPath, foldProof_append_singleton, foldProof_add_high, topSet]
  simp

end Climb

/-- The fold of `IndexedMerkleProof::new` over leaves with the proof at `j`: a proof that
starts at the leaf and, hashed up along `root_hash`'s path, gives the root of the leaves'
tree, one hash for each level. By induction along the cuts of `tree_fold1`, the proof being
in the left part or in the right. -/
theorem treeFold1_markLeaves (hashPair : δ → δ → δ) {leaves : List δ} (position j : Nat)
    (below : j < leaves.length) :
    ∃ siblings root, treeFold1 hashPair leaves = some root ∧
      treeFold1 (HashOrProof.combine hashPair) ((markLeaves (position + j) position leaves).map some) =
        some (some (.proof (leaves[j] :: siblings))) ∧
      siblings.length = descend (· + 1) (· + 1) leaves.length 0 leaves.length j ∧
      foldProof hashPair (rootPath leaves.length j) leaves[j] siblings = root := by
  induction leaves using induction_on_split generalizing position j with
  | nil => cases below
  | singleton hash =>
    obtain rfl : j = 0 := by simpa using below
    refine ⟨[], hash, by simp, by simp [markLeaves], ?_, rfl⟩
    rw [descend_of_le_one (by simp)]
    rfl
  | split leaves two_le ihLeft ihRight =>
    have below' := pivot_lt two_le
    have positive := pivot_pos leaves.length
    have leftLength : (leaves.take (pivot leaves.length)).length = pivot leaves.length := by
      simp only [List.length_take]
      omega
    have rightLength : (leaves.drop (pivot leaves.length)).length = leaves.length - pivot leaves.length := by simp
    have two_le' : 2 ≤ ((markLeaves (position + j) position leaves).map some).length := by
      simpa [length_markLeaves] using two_le
    rw [treeFold1_split _ two_le', List.length_map, length_markLeaves, ← List.map_take, ← List.map_drop,
      take_markLeaves, drop_markLeaves, treeFold1_split _ two_le]
    by_cases onLeft : j < pivot leaves.length
    · -- the proof is in the left part, and the right part folds to its root
      obtain ⟨siblings, leftRoot, leftFolded, leftMarked, depth, climb⟩ :=
        ihLeft position j (by rw [leftLength]; exact onLeft)
      simp only [List.getElem_take, leftLength] at leftMarked depth climb
      have rightNonempty : leaves.drop (pivot leaves.length) ≠ [] := List.ne_nil_of_length_pos (by omega)
      obtain ⟨rightRoot, rightFolded⟩ := Option.isSome_iff_exists.mp (treeFold1_isSome hashPair rightNonempty)
      have rightHashes : markLeaves (position + j) (position + pivot leaves.length) (leaves.drop (pivot leaves.length)) =
          (leaves.drop (pivot leaves.length)).map HashOrProof.hash := markLeaves_of_outside (Or.inl (by omega))
      have rightMarked := treeFold1_hashes hashPair (leaves.drop (pivot leaves.length))
      refine ⟨siblings ++ [rightRoot], hashPair leftRoot rightRoot, by simp [leftFolded, rightFolded], ?_, ?_, ?_⟩
      · rw [leftMarked, rightHashes, rightMarked, rightFolded]
        simp [HashOrProof.combine]
      · rw [List.length_append, depth, length_descend_pos two_le, if_pos onLeft]
        simp only [List.length_singleton]
        omega
      · rw [foldProof_rootPath_left hashPair two_le _ _ onLeft depth, climb]
    · -- the proof is in the right part, and the left part folds to its root
      have onRight : pivot leaves.length ≤ j := by omega
      obtain ⟨siblings, rightRoot, rightFolded, rightMarked, depth, climb⟩ :=
        ihRight (position + pivot leaves.length) (j - pivot leaves.length) (by rw [rightLength]; omega)
      have sameIndex : position + pivot leaves.length + (j - pivot leaves.length) = position + j := by omega
      have sameOffset : pivot leaves.length + (j - pivot leaves.length) = j := by omega
      simp only [sameIndex, List.getElem_drop, sameOffset, rightLength] at rightMarked depth climb
      have leftNonempty : leaves.take (pivot leaves.length) ≠ [] := List.ne_nil_of_length_pos (by omega)
      obtain ⟨leftRoot, leftFolded⟩ := Option.isSome_iff_exists.mp (treeFold1_isSome hashPair leftNonempty)
      have leftHashes : markLeaves (position + j) position (leaves.take (pivot leaves.length)) =
          (leaves.take (pivot leaves.length)).map HashOrProof.hash := markLeaves_of_outside (Or.inr (by omega))
      have leftMarked := treeFold1_hashes hashPair (leaves.take (pivot leaves.length))
      refine ⟨siblings ++ [leftRoot], hashPair leftRoot rightRoot, by simp [leftFolded, rightFolded], ?_, ?_, ?_⟩
      · rw [leftHashes, leftMarked, leftFolded, rightMarked]
        simp [HashOrProof.combine]
      · rw [List.length_append, depth, length_descend_pos two_le, if_neg onLeft]
        simp only [List.length_singleton]
        omega
      · rw [foldProof_rootPath_right hashPair two_le _ _ onRight depth, climb]

section New

variable (digest : Digest δ) {leaves : List δ} {index : Nat}

/-- Within the leaves, `new` gives a proof that starts at the leaf, passes `verify` and hashes
up to the Merkle root of the leaves. -/
theorem IndexedMerkleProof.new_of_lt (below : index < leaves.length) :
    ∃ proof, IndexedMerkleProof.new digest leaves index = some (.ok proof) ∧
      proof.index = index ∧ proof.count = leaves.length ∧ proof.merkleProof.head? = some leaves[index] ∧
      proof.verify = .ok () ∧ proof.rootHash digest = digest.hashMerkleTree leaves := by
  obtain ⟨siblings, root, folded, marked, depth, climb⟩ := treeFold1_markLeaves digest.hashPair 0 index below
  rw [Nat.zero_add] at marked
  refine ⟨⟨index, leaves.length, leaves[index] :: siblings⟩, by rw [IndexedMerkleProof.new, marked], rfl, rfl,
    rfl, ?_, ?_⟩
  · -- the proof has the leaf and one hash for each level: the length the loop counts
    have expected : IndexedMerkleProof.computeExpectedProofLength ⟨index, leaves.length, leaves[index] :: siblings⟩ =
        siblings.length + 1 := by
      have nonzero : leaves.length ≠ 0 := by omega
      simp only [IndexedMerkleProof.computeExpectedProofLength, if_neg nonzero]
      rw [descend_count, depth]
      omega
    simp [IndexedMerkleProof.verify, expected, show ¬ leaves.length ≤ index by omega]
  · rw [IndexedMerkleProof.rootHash, Digest.hashMerkleTree, folded]
    simp only
    rw [climb]

theorem IndexedMerkleProof.new_of_le (atLeast : leaves.length ≤ index) :
    IndexedMerkleProof.new digest leaves index = some (.error (.indexOutOfBounds leaves.length index)) := by
  have hashes : markLeaves index 0 leaves = leaves.map HashOrProof.hash :=
    markLeaves_of_outside (Or.inr (by omega))
  rw [IndexedMerkleProof.new, hashes, treeFold1_hashes]
  cases treeFold1 digest.hashPair leaves <;> rfl

end New

end CasperHashing
