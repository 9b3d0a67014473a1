import CasperNode.Hashing.MerkleProof

/-!
`IndexedMerkleProof::root_hash` with the `u64` arithmetic of its loop, and the recursion
`reference_root_from_proof` of the crate's tests (`hashing/src/indexed_merkle_proof.rs`).

The loop keeps `n`, `i` and `path` in `u64` and cuts at
`1u64 << (63 - (n - 1).leading_zeros())`. Every count is below `2 ^ 64`, so a leaf is at most
64 levels down and `path <<= 1` never drops a bit: the word loop computes the path of
`rootPath`. The recursion takes the proof from its last hash down, halving the count
as the loop does; it panics (`none` here) only on a proof too short for the count.
-/

namespace CasperHashing

open TreeFold

variable {δ β : Type}

section Word

/-- `u64::leading_zeros`. -/
def leadingZeros (x : UInt64) : Nat := x.toBitVec.clz.toNat

theorem leadingZeros_eq {x : UInt64} (nonzero : x ≠ 0) : leadingZeros x = 63 - Nat.log2 x.toNat := by
  have bitsNonzero : x.toBitVec ≠ 0#64 := fun zero => nonzero (UInt64.toBitVec_inj.mp zero)
  have lower := BitVec.two_pow_sub_clz_le_toNat_of_ne_zero (by decide) bitsNonzero
  have upper := @BitVec.toNat_lt_two_pow_sub_clz 64 x.toBitVec
  simp only [UInt64.toNat_toBitVec] at lower upper
  have positive : x.toNat ≠ 0 := fun zero => nonzero (UInt64.toNat_inj.mp zero)
  -- a word with 64 leading zeros is zero
  have atMost : x.toBitVec.clz.toNat ≤ 63 := by
    by_contra tooMany
    have empty : 64 - x.toBitVec.clz.toNat = 0 := by omega
    rw [empty] at upper
    omega
  have logEq : Nat.log2 x.toNat = 63 - x.toBitVec.clz.toNat := by
    rw [Nat.log2_eq_iff positive]
    have lowerExponent : 64 - 1 - x.toBitVec.clz.toNat = 63 - x.toBitVec.clz.toNat := rfl
    have upperExponent : 64 - x.toBitVec.clz.toNat = 63 - x.toBitVec.clz.toNat + 1 := by omega
    rw [lowerExponent] at lower
    rw [upperExponent] at upper
    exact ⟨lower, upper⟩
  rw [leadingZeros, logEq]
  omega

/-- The cut of the loop, `1u64 << (63 - (n - 1).leading_zeros())`. The loop runs only for
`n > 1`, where the shift is below 64 and the `u32` subtraction does not wrap. -/
def pivotWord (n : UInt64) : UInt64 := 1 <<< UInt64.ofNat (63 - leadingZeros (n - 1))

theorem pivotWord_toNat {n : UInt64} (more : 1 < n.toNat) : (pivotWord n).toNat = pivot n.toNat := by
  have predecessor : (n - 1).toNat = n.toNat - 1 :=
    UInt64.toNat_sub_of_le n 1 (UInt64.le_iff_toNat_le.mpr (by simp; omega))
  have nonzero : n - 1 ≠ 0 := by
    intro zero
    have := congrArg UInt64.toNat zero
    simp only [predecessor, UInt64.toNat_zero] at this
    omega
  have logBelow : Nat.log2 (n.toNat - 1) < 64 := (Nat.log2_lt (by omega)).mpr (by have := n.toNat_lt; omega)
  have shift : 63 - leadingZeros (n - 1) = Nat.log2 (n.toNat - 1) := by
    rw [leadingZeros_eq nonzero, predecessor]
    omega
  have fits : 2 ^ Nat.log2 (n.toNat - 1) < 2 ^ 64 := Nat.pow_lt_pow_right (by decide) logBelow
  rw [pivotWord, shift, UInt64.toNat_shiftLeft, UInt64.toNat_ofNat', UInt64.toNat_one,
    Nat.mod_eq_of_lt (by omega : Nat.log2 (n.toNat - 1) < 2 ^ 64), Nat.mod_eq_of_lt logBelow,
    Nat.one_shiftLeft, Nat.mod_eq_of_lt fits, pivot]

/-- The `while n > 1` loop over `u64` counts and indices. -/
def descendWord (left right : β → β) : Nat → β → UInt64 → UInt64 → β
  | 0, acc, _, _ => acc
  | fuel + 1, acc, n, i =>
    if 1 < n then
      let pivot := pivotWord n
      if i < pivot then descendWord left right fuel (left acc) pivot i
      else descendWord left right fuel (right acc) (n - pivot) (i - pivot)
    else acc

/-- The loop over words is the loop over their values: the cut is the same, and neither
subtraction wraps, `pivot` being below `n` and at most `i` where it is taken from it. -/
theorem descendWord_eq_descend (left right : β → β) (fuel : Nat) (acc : β) (n i : UInt64) :
    descendWord left right fuel acc n i = descend left right fuel acc n.toNat i.toNat := by
  induction fuel generalizing acc n i with
  | zero => rfl
  | succ fuel ih =>
    by_cases more : 1 < n.toNat
    · have moreWord : 1 < n := UInt64.lt_iff_toNat_lt.mpr more
      have cut := pivotWord_toNat more
      have below := pivot_lt more
      simp only [descendWord, descend, if_pos moreWord, if_pos more]
      by_cases onLeft : i.toNat < pivot n.toNat
      · have onLeftWord : i < pivotWord n := UInt64.lt_iff_toNat_lt.mpr (by rw [cut]; exact onLeft)
        rw [if_pos onLeftWord, if_pos onLeft, ih, cut]
      · have onRightWord : ¬ i < pivotWord n := by
          rw [UInt64.lt_iff_toNat_lt, cut]
          exact onLeft
        have nFits : pivotWord n ≤ n := UInt64.le_iff_toNat_le.mpr (by omega)
        have iFits : pivotWord n ≤ i := UInt64.le_iff_toNat_le.mpr (by omega)
        rw [if_neg onRightWord, if_neg onLeft, ih, UInt64.toNat_sub_of_le _ _ nFits,
          UInt64.toNat_sub_of_le _ _ iFits, cut]
    · have notMoreWord : ¬ 1 < n := fun moreWord => more (UInt64.lt_iff_toNat_lt.mp moreWord)
      simp only [descendWord, descend, if_neg notMoreWord, if_neg more]

/-- One level of the path in a word: with room for the levels still to come, shifting in a
bit loses nothing. -/
theorem toNat_shiftLeft_one {path : UInt64} (room : 2 * path.toNat < 2 ^ 64) :
    (path <<< 1).toNat = path.toNat <<< 1 := by
  rw [UInt64.toNat_shiftLeft, UInt64.toNat_one, Nat.shiftLeft_eq]
  simp only [Nat.one_mod, Nat.pow_one]
  omega

/-- The path grows in a word as it does in a number while there is room for the levels still
to come: `(acc + 1) * 2 ^ levels ≤ 2 ^ 64`. By induction on the fuel; a turn doubles `acc`,
maybe adds one, and leaves one level fewer. -/
theorem descend_path_toNat (fuel : Nat) (acc : UInt64) (n i : Nat)
    (room : (acc.toNat + 1) * 2 ^ descend (· + 1) (· + 1) fuel 0 n i ≤ 2 ^ 64) :
    (descend (fun path : UInt64 => path <<< 1) (fun path => path <<< 1 ||| 1) fuel acc n i).toNat =
      descend (fun path : Nat => path <<< 1) (fun path => path <<< 1 ||| 1) fuel acc.toNat n i := by
  induction fuel generalizing acc n i with
  | zero => rfl
  | succ fuel ih =>
    by_cases more : 1 < n
    · -- the room left after one level, for both ways down
      have halve : ∀ levels, (acc.toNat + 1) * 2 ^ (0 + 1 + levels) ≤ 2 ^ 64 →
          2 * acc.toNat < 2 ^ 64 ∧ (2 * acc.toNat + 1 + 1) * 2 ^ levels ≤ 2 ^ 64 := by
        intro levels fits
        have regrouped : (acc.toNat + 1) * 2 ^ (0 + 1 + levels) = (2 * acc.toNat + 1 + 1) * 2 ^ levels := by
          ring
        have grows : 2 * acc.toNat + 1 + 1 ≤ (2 * acc.toNat + 1 + 1) * 2 ^ levels :=
          Nat.le_mul_of_pos_right _ (Nat.two_pow_pos _)
        omega
      simp only [descend, if_pos more] at room ⊢
      split_ifs at room ⊢
      · rw [descend_count fuel (0 + 1)] at room
        obtain ⟨doubled, left⟩ := halve _ room
        have shifted := toNat_shiftLeft_one doubled
        have roomLeft : ((acc <<< 1).toNat + 1) * 2 ^ descend (· + 1) (· + 1) fuel 0 (pivot n) i ≤ 2 ^ 64 := by
          rw [shifted, Nat.shiftLeft_eq, Nat.pow_one]
          have smaller : acc.toNat * 2 + 1 ≤ 2 * acc.toNat + 1 + 1 := by omega
          exact Nat.le_trans (Nat.mul_le_mul_right _ smaller) left
        rw [ih _ _ _ roomLeft, shifted]
      · rw [descend_count fuel (0 + 1)] at room
        obtain ⟨doubled, right⟩ := halve _ room
        have shifted : (acc <<< 1 ||| 1).toNat = acc.toNat <<< 1 ||| 1 := by
          rw [UInt64.toNat_or, toNat_shiftLeft_one doubled, UInt64.toNat_one]
        have roomRight : ((acc <<< 1 ||| 1).toNat + 1) *
            2 ^ descend (· + 1) (· + 1) fuel 0 (n - pivot n) (i - pivot n) ≤ 2 ^ 64 := by
          rw [shifted, shiftLeft_one_or_one]
          exact right
        rw [ih _ _ _ roomRight, shifted]
    · rw [descend_of_le_one (by omega), descend_of_le_one (by omega)]

/-- The `path` of `root_hash`, computed over words. -/
def rootPathWord (count index : UInt64) : UInt64 :=
  descendWord (fun path => path <<< 1) (fun path => path <<< 1 ||| 1) count.toNat 0 count index

theorem rootPathWord_toNat (count index : UInt64) :
    (rootPathWord count index).toNat = rootPath count.toNat index.toNat := by
  have levels := descend_count_le count.toNat index.toNat (Nat.le_of_lt count.toNat_lt)
  have room : ((0 : UInt64).toNat + 1) * 2 ^ descend (· + 1) (· + 1) count.toNat 0 count.toNat index.toNat ≤
      2 ^ 64 := by
    rw [UInt64.toNat_zero, Nat.zero_add, Nat.one_mul]
    exact Nat.pow_le_pow_right (by decide) levels
  rw [rootPathWord, descendWord_eq_descend, descend_path_toNat _ _ _ _ room]
  rfl

/-- The fold of `root_hash` with the path in a word: `path & 1` and `path >>= 1`. -/
def foldProofWord (hashPair : δ → δ → δ) : UInt64 → δ → List δ → δ
  | _, acc, [] => acc
  | path, acc, hash :: hashes =>
    foldProofWord hashPair (path >>> 1) (if path &&& 1 = 1 then hashPair hash acc else hashPair acc hash) hashes

theorem foldProofWord_eq (hashPair : δ → δ → δ) (path : UInt64) (acc : δ) (hashes : List δ) :
    foldProofWord hashPair path acc hashes = foldProof hashPair path.toNat acc hashes := by
  induction hashes generalizing path acc with
  | nil => rfl
  | cons hash hashes ih =>
    have shifted : (path >>> 1).toNat = path.toNat >>> 1 := by
      rw [UInt64.toNat_shiftRight, UInt64.toNat_one]
    by_cases odd : path.toNat &&& 1 = 1
    · have oddWord : path &&& 1 = 1 := UInt64.toNat_inj.mp (by rw [UInt64.toNat_and, UInt64.toNat_one]; exact odd)
      rw [foldProofWord, foldProof, if_pos oddWord, if_pos odd, ih, shifted]
    · have evenWord : ¬ path &&& 1 = 1 := fun oddWord => odd (by
        rw [← UInt64.toNat_one, ← UInt64.toNat_and, oddWord])
      rw [foldProofWord, foldProof, if_neg evenWord, if_neg odd, ih, shifted]

/-- `root_hash` as written, with the index and count of the proof as `u64`. -/
def IndexedMerkleProof.rootHashWord (digest : Digest δ) (proof : IndexedMerkleProof δ) : δ :=
  match proof.merkleProof with
  | [] => digest.hashMerkleRoot proof.count digest.SENTINEL_MERKLE_TREE
  | leafHash :: hashes =>
    digest.hashMerkleRoot proof.count
      (foldProofWord digest.hashPair (rootPathWord (UInt64.ofNat proof.count) (UInt64.ofNat proof.index))
        leafHash hashes)

theorem IndexedMerkleProof.rootHashWord_eq_rootHash (digest : Digest δ) {proof : IndexedMerkleProof δ}
    (counted : proof.count < 2 ^ 64) (below : proof.index < proof.count) :
    proof.rootHashWord digest = proof.rootHash digest := by
  unfold rootHashWord rootHash
  cases proof.merkleProof with
  | nil => rfl
  | cons leafHash hashes =>
    dsimp only
    rw [foldProofWord_eq, rootPathWord_toNat, UInt64.toNat_ofNat_of_lt' counted,
      UInt64.toNat_ofNat_of_lt' (Nat.lt_trans below counted)]

end Word

section Reference

variable (digest : Digest δ)

/-- `compute_raw_root_from_proof`: the last hash of the proof is the sibling at the top, and
the rest is the proof in the part of the tree that holds the leaf. `proof[0]` and the slice
`proof[..proof.len() - 1]` of an empty proof panic, `none` here; the fuel is the count. -/
def computeRawRootFromProof : Nat → Nat → Nat → List δ → Option δ
  | 0, _, _, _ => none
  | fuel + 1, index, leafCount, proof =>
    if leafCount = 0 then some digest.SENTINEL_MERKLE_TREE
    else if leafCount = 1 then proof.head?
    else
      let half := pivot leafCount
      match proof.getLast? with
      | none => none
      | some last =>
        if index < half then
          (computeRawRootFromProof fuel index half proof.dropLast).map fun left => digest.hashPair left last
        else
          (computeRawRootFromProof fuel (index - half) (leafCount - half) proof.dropLast).map
            fun right => digest.hashPair last right

def referenceRootFromProof (index count : Nat) (proof : List δ) : Option δ :=
  (computeRawRootFromProof digest (count + 1) index count proof).map (digest.hashMerkleRoot count)

/-- A proof with one hash for each level of the leaf folds, from the last hash down, to what
`root_hash` computes from the first hash up. By induction on the fuel; each turn peels the
top level off both. -/
theorem computeRawRootFromProof_eq {fuel count index : Nat} (enough : count < fuel) (below : index < count)
    (leaf : δ) {hashes : List δ} (depth : hashes.length = descend (· + 1) (· + 1) count 0 count index) :
    computeRawRootFromProof digest fuel index count (leaf :: hashes) =
      some (foldProof digest.hashPair (rootPath count index) leaf hashes) := by
  induction fuel generalizing count index hashes with
  | zero => omega
  | succ fuel ih =>
    by_cases single : count = 1
    · subst single
      obtain rfl : hashes = [] := List.eq_nil_of_length_eq_zero (by rw [depth, descend_of_le_one (by omega)])
      simp [computeRawRootFromProof]
    · have two_le : 2 ≤ count := by omega
      have below' := pivot_lt two_le
      have positive := pivot_pos count
      rw [length_descend_pos two_le] at depth
      obtain ⟨init, last, rfl⟩ : ∃ init last, hashes = init ++ [last] := by
        rcases List.eq_nil_or_concat hashes with empty | ⟨init, last, split⟩
        · rw [empty, List.length_nil] at depth
          split_ifs at depth <;> omega
        · exact ⟨init, last, by rw [split, List.concat_eq_append]⟩
      have lastOf : (leaf :: (init ++ [last])).getLast? = some last := by
        rw [← List.cons_append]
        exact List.getLast?_concat
      have initOf : (leaf :: (init ++ [last])).dropLast = leaf :: init := by
        rw [← List.cons_append, List.dropLast_concat]
      simp only [computeRawRootFromProof, if_neg (show count ≠ 0 by omega), if_neg single, lastOf, initOf]
      simp only [List.length_append, List.length_singleton] at depth
      by_cases onLeft : index < pivot count
      · rw [if_pos onLeft] at depth
        rw [if_pos onLeft, ih (by omega) onLeft (by omega),
          foldProof_rootPath_left digest.hashPair two_le leaf last onLeft (by omega)]
        rfl
      · rw [if_neg onLeft] at depth
        rw [if_neg onLeft, ih (by omega) (by omega) (by omega),
          foldProof_rootPath_right digest.hashPair two_le leaf last (by omega) (by omega)]
        rfl

end Reference

theorem root_from_proof_agrees_with_recursion (digest : Digest δ) :
    (∀ proof : IndexedMerkleProof δ, proof.count < 2 ^ 64 → proof.computeExpectedProofLength ≤ 65) ∧
      (∀ proof : IndexedMerkleProof δ, proof.count < 2 ^ 64 → proof.index < proof.count →
        proof.merkleProof.length = proof.computeExpectedProofLength →
          referenceRootFromProof digest proof.index proof.count proof.merkleProof = some (proof.rootHashWord digest) ∧
            proof.rootHashWord digest = proof.rootHash digest) ∧
      ∀ proof : IndexedMerkleProof δ, proof.verify = .ok () ↔
        proof.index < proof.count ∧ proof.merkleProof.length = proof.computeExpectedProofLength := by
  refine ⟨fun proof counted => ?_, fun proof counted below expected => ?_, fun proof => ?_⟩
  · -- the leaf and at most 64 levels
    have levels := descend_count_le proof.count proof.index (Nat.le_of_lt counted)
    unfold IndexedMerkleProof.computeExpectedProofLength
    split
    · omega
    · rw [descend_count]
      omega
  · obtain ⟨index, count, merkleProof⟩ := proof
    simp only at counted below expected ⊢
    have nonzero : count ≠ 0 := by omega
    have counting : (IndexedMerkleProof.mk index count merkleProof).computeExpectedProofLength =
        1 + descend (· + 1) (· + 1) count 0 count index := by
      rw [IndexedMerkleProof.computeExpectedProofLength, if_neg nonzero, descend_count]
    rw [counting] at expected
    have agrees := @IndexedMerkleProof.rootHashWord_eq_rootHash δ digest ⟨index, count, merkleProof⟩ counted below
    refine ⟨?_, agrees⟩
    rw [agrees]
    cases merkleProof with
    | nil =>
      rw [List.length_nil] at expected
      omega
    | cons leaf hashes =>
      rw [List.length_cons] at expected
      rw [referenceRootFromProof, computeRawRootFromProof_eq digest (by omega) below leaf (by omega)]
      rfl
  · unfold IndexedMerkleProof.verify
    split_ifs <;> simp_all



/-- At the top of the `u64` range: the largest count, and the leaf at the top bit, 64 levels
down, with a proof of 65 hashes. -/
theorem root_from_proof_agrees_with_recursion_at_top_bit :
    (2 ^ 64 - 1 < 2 ^ 64 ∧ 2 ^ 63 < 2 ^ 64 - 1 ∧
      (List.replicate 65 7).length =
        (IndexedMerkleProof.mk (2 ^ 63) (2 ^ 64 - 1) (List.replicate 65 7)).computeExpectedProofLength) ∧
      referenceRootFromProof ⟨fun _ => 0, fun left right => 3 * left + right + 1, fun count raw => count + raw, 0⟩
          (2 ^ 63) (2 ^ 64 - 1) (List.replicate 65 7) =
        some ((IndexedMerkleProof.mk (2 ^ 63) (2 ^ 64 - 1) (List.replicate 65 7)).rootHashWord
          ⟨fun _ => 0, fun left right => 3 * left + right + 1, fun count raw => count + raw, 0⟩) :=
  ⟨⟨by decide, by decide, by decide +kernel⟩,
    ((root_from_proof_agrees_with_recursion
      ⟨fun _ => 0, fun left right => 3 * left + right + 1, fun count raw => count + raw, 0⟩).2.1
        ⟨2 ^ 63, 2 ^ 64 - 1, List.replicate 65 7⟩ (by decide) (by decide) (by decide +kernel)).1⟩

end CasperHashing
