import CasperNode.Hashing.MerkleProof
import CasperNode.Lib.Chunks

/-!
Chunked values (`hashing/src/chunk_with_proof.rs`) and their reassembly by the trie
accumulator (`PartialChunks` in `block_synchronizer/trie_accumulator.rs`). A value longer
than `CHUNK_SIZE_BYTES` is hashed as the Merkle tree of its chunks' hashes; each chunk
travels with the indexed Merkle proof of its hash, and the accumulator joins the chunks it
holds in index order. The received chunks are the accumulator's `HashMap`, a function from
indices here.
-/

namespace CasperHashing

open Chunks

variable {δ : Type}

/-- `ChunkWithProof::CHUNK_SIZE_BYTES` outside tests: 8 MiB. -/
def CHUNK_SIZE_BYTES : Nat := 8 * 1024 * 1024

def Digest.hashIntoChunksIfNecessary (digest : Digest δ) (bytes : List UInt8) : δ :=
  if bytes.length ≤ CHUNK_SIZE_BYTES then digest.blake2bHash bytes
  else digest.hashMerkleTree ((chunks CHUNK_SIZE_BYTES bytes).map digest.blake2bHash)

structure ChunkWithProof (δ : Type) where
  proof : IndexedMerkleProof δ
  chunk : List UInt8

/-- `ChunkWithProof::new`: empty data is one empty chunk. Otherwise the proof is built over
the chunks' hashes first, and the chunk at `index` is taken after; `none` is the
`unreachable!()` of `IndexedMerkleProof::new`. -/
def ChunkWithProof.new (digest : Digest δ) (data : List UInt8) (index : Nat) :
    Option (Except MerkleConstructionError (ChunkWithProof δ)) :=
  if data.isEmpty then
    match IndexedMerkleProof.new digest [digest.blake2bHash []] index with
    | none => none
    | some (.error error) => some (.error error)
    | some (.ok proof) => some (.ok ⟨proof, []⟩)
  else
    match IndexedMerkleProof.new digest ((chunks CHUNK_SIZE_BYTES data).map digest.blake2bHash) index with
    | none => none
    | some (.error error) => some (.error error)
    | some (.ok proof) =>
      match (chunks CHUNK_SIZE_BYTES data)[index]? with
      | some chunk => some (.ok ⟨proof, chunk⟩)
      | none => some (.error (.indexOutOfBounds (chunks CHUNK_SIZE_BYTES data).length index))

/-- `ChunkWithProofVerificationError`; `UnexpectedRootHash` and `Bytesrepr` are not raised by
`verify`. -/
inductive ChunkWithProofVerificationError (δ : Type) where
  | merkleVerificationError (error : MerkleVerificationError)
  | chunkWithProofHasEmptyMerkleProof (chunkWithProof : ChunkWithProof δ)
  | firstDigestInMerkleProofDidNotMatchHashOfChunk (firstDigestInIndexedMerkleProof hashOfChunk : δ)

def ChunkWithProof.verify [DecidableEq δ] (digest : Digest δ) (chunkWithProof : ChunkWithProof δ) :
    Except (ChunkWithProofVerificationError δ) Unit := do
  chunkWithProof.proof.verify.mapError .merkleVerificationError
  match chunkWithProof.proof.merkleProof.head? with
  | none => throw (.chunkWithProofHasEmptyMerkleProof chunkWithProof)
  | some firstDigest =>
    if firstDigest ≠ digest.blake2bHash chunkWithProof.chunk then
      throw (.firstDigestInMerkleProofDidNotMatchHashOfChunk firstDigest (digest.blake2bHash chunkWithProof.chunk))
    else pure ()

/-- `PartialChunks::missing_chunk`: the first index below `count` with no chunk. -/
def PartialChunks.missingChunk (received : Nat → Option (ChunkWithProof δ)) (count : Nat) : Option Nat :=
  (List.range count).find? fun index => (received index).isNone

/-- `PartialChunks::assemble_chunks`: the chunks held at `0..count`, joined in order. -/
def PartialChunks.assembleChunks (received : Nat → Option (ChunkWithProof δ)) (count : Nat) : List UInt8 :=
  ((List.range count).filterMap received).flatMap ChunkWithProof.chunk

section Chunks

variable (digest : Digest δ) {data : List UInt8} {index : Nat}

theorem hashIntoChunksIfNecessary_of_lt (large : CHUNK_SIZE_BYTES < data.length) :
    digest.hashIntoChunksIfNecessary data =
      digest.hashMerkleTree ((chunks CHUNK_SIZE_BYTES data).map digest.blake2bHash) := by
  rw [Digest.hashIntoChunksIfNecessary, if_neg (by omega)]

theorem ChunkWithProof.verify_of_head [DecidableEq δ] {chunkWithProof : ChunkWithProof δ}
    (proofChecks : chunkWithProof.proof.verify = .ok ())
    (startsAtChunk : chunkWithProof.proof.merkleProof.head? = some (digest.blake2bHash chunkWithProof.chunk)) :
    chunkWithProof.verify digest = .ok () := by
  simp [ChunkWithProof.verify, proofChecks, startsAtChunk, Except.mapError]

/-- For data that is not empty, each index among the chunks gives that chunk with a proof
that passes `verify` and hashes up to the Merkle root of the chunks' hashes. -/
theorem ChunkWithProof.new_of_lt [DecidableEq δ] (nonempty : data ≠ [])
    (below : index < (chunks CHUNK_SIZE_BYTES data).length) :
    ∃ chunkWithProof, ChunkWithProof.new digest data index = some (.ok chunkWithProof) ∧
      chunkWithProof.chunk = (chunks CHUNK_SIZE_BYTES data)[index] ∧
      chunkWithProof.proof.index = index ∧
      chunkWithProof.proof.count = (chunks CHUNK_SIZE_BYTES data).length ∧
      chunkWithProof.verify digest = .ok () ∧
      chunkWithProof.proof.rootHash digest =
        digest.hashMerkleTree ((chunks CHUNK_SIZE_BYTES data).map digest.blake2bHash) := by
  have belowLeaves : index < ((chunks CHUNK_SIZE_BYTES data).map digest.blake2bHash).length := by
    rw [List.length_map]
    exact below
  obtain ⟨proof, built, sameIndex, sameCount, startsAtLeaf, proofChecks, rootHash⟩ :=
    IndexedMerkleProof.new_of_lt digest belowLeaves
  refine ⟨⟨proof, (chunks CHUNK_SIZE_BYTES data)[index]⟩, ?_, rfl, sameIndex, by simpa using sameCount, ?_, rootHash⟩
  · rw [ChunkWithProof.new, if_neg (by simpa using nonempty), built]
    simp only [List.getElem?_eq_getElem below]
  · exact ChunkWithProof.verify_of_head digest proofChecks (by simpa using startsAtLeaf)

theorem ChunkWithProof.new_of_le (nonempty : data ≠ [])
    (atLeast : (chunks CHUNK_SIZE_BYTES data).length ≤ index) :
    ChunkWithProof.new digest data index =
      some (.error (.indexOutOfBounds (chunks CHUNK_SIZE_BYTES data).length index)) := by
  have pastLeaves : ((chunks CHUNK_SIZE_BYTES data).map digest.blake2bHash).length ≤ index := by
    rw [List.length_map]
    exact atLeast
  rw [ChunkWithProof.new, if_neg (by simpa using nonempty), IndexedMerkleProof.new_of_le digest pastLeaves,
    List.length_map]

/-- Holding, at every index among the chunks, the chunk that `new` gives there, the
accumulator joins them back into the data. -/
theorem assembleChunks_of_received [DecidableEq δ] (nonempty : data ≠ [])
    {received : Nat → Option (ChunkWithProof δ)}
    (holds : ∀ index < (chunks CHUNK_SIZE_BYTES data).length, ∃ chunkWithProof,
      ChunkWithProof.new digest data index = some (.ok chunkWithProof) ∧ received index = some chunkWithProof) :
    PartialChunks.assembleChunks received (chunks CHUNK_SIZE_BYTES data).length = data := by
  have heldChunks : ∀ index (below : index < (chunks CHUNK_SIZE_BYTES data).length), ∃ chunkWithProof,
      received index = some chunkWithProof ∧ chunkWithProof.chunk = (chunks CHUNK_SIZE_BYTES data)[index] := by
    intro index below
    obtain ⟨chunkWithProof, built, held⟩ := holds index below
    obtain ⟨expected, builtExpected, sameChunk, -⟩ := ChunkWithProof.new_of_lt digest nonempty below
    rw [built, Option.some.injEq, Except.ok.injEq] at builtExpected
    exact ⟨chunkWithProof, held, builtExpected ▸ sameChunk⟩
  rw [PartialChunks.assembleChunks, flatMap_filterMap_range heldChunks, flatten_chunks (by decide)]

end Chunks

/-- Large values travel in chunks and come back whole: each index among the
`ceil(len / CHUNK_SIZE_BYTES)` chunks gives a chunk whose proof verifies and hashes up to the
value's hash, the chunks joined in order are the value, and every other index is out of
bounds. -/
theorem chunk_with_proof_round_trip [DecidableEq δ] (digest : Digest δ) {data : List UInt8}
    (large : CHUNK_SIZE_BYTES < data.length) :
    (∀ index < (data.length + CHUNK_SIZE_BYTES - 1) / CHUNK_SIZE_BYTES,
      ∃ chunkWithProof, ChunkWithProof.new digest data index = some (.ok chunkWithProof) ∧
        chunkWithProof.verify digest = .ok () ∧
        chunkWithProof.proof.count = (data.length + CHUNK_SIZE_BYTES - 1) / CHUNK_SIZE_BYTES ∧
        chunkWithProof.proof.index = index ∧
        chunkWithProof.proof.rootHash digest = digest.hashIntoChunksIfNecessary data) ∧
    (∀ received : Nat → Option (ChunkWithProof δ),
      (∀ index < (data.length + CHUNK_SIZE_BYTES - 1) / CHUNK_SIZE_BYTES, ∃ chunkWithProof,
        ChunkWithProof.new digest data index = some (.ok chunkWithProof) ∧ received index = some chunkWithProof) →
      PartialChunks.assembleChunks received ((data.length + CHUNK_SIZE_BYTES - 1) / CHUNK_SIZE_BYTES) = data) ∧
    (∀ index, (data.length + CHUNK_SIZE_BYTES - 1) / CHUNK_SIZE_BYTES ≤ index →
      ChunkWithProof.new digest data index =
        some (.error (.indexOutOfBounds ((data.length + CHUNK_SIZE_BYTES - 1) / CHUNK_SIZE_BYTES) index))) := by
  have nonempty : data ≠ [] := List.ne_nil_of_length_pos (by omega)
  have count := length_chunks (by decide : 0 < CHUNK_SIZE_BYTES) data
  rw [← count]
  refine ⟨fun index below => ?_, fun received holds => assembleChunks_of_received digest nonempty holds,
    fun index atLeast => ChunkWithProof.new_of_le digest nonempty atLeast⟩
  obtain ⟨chunkWithProof, built, -, sameIndex, sameCount, verified, rootHash⟩ :=
    ChunkWithProof.new_of_lt digest nonempty below
  exact ⟨chunkWithProof, built, verified, sameCount, sameIndex,
    by rw [rootHash, hashIntoChunksIfNecessary_of_lt digest large]⟩

/-- A digest that keeps only lengths and sums: enough to run the model on a value. -/
def lengthDigest : Digest Nat := ⟨List.length, (· + ·), (· + ·), 0⟩

theorem chunk_with_proof_round_trip_past_one_chunk :
    CHUNK_SIZE_BYTES < (List.replicate (CHUNK_SIZE_BYTES + 1) (0 : UInt8)).length ∧
    (∀ index < ((List.replicate (CHUNK_SIZE_BYTES + 1) (0 : UInt8)).length + CHUNK_SIZE_BYTES - 1) / CHUNK_SIZE_BYTES,
      ∃ chunkWithProof, ChunkWithProof.new lengthDigest (List.replicate (CHUNK_SIZE_BYTES + 1) 0) index =
          some (.ok chunkWithProof) ∧
        chunkWithProof.verify lengthDigest = .ok () ∧
        chunkWithProof.proof.count =
          ((List.replicate (CHUNK_SIZE_BYTES + 1) (0 : UInt8)).length + CHUNK_SIZE_BYTES - 1) / CHUNK_SIZE_BYTES ∧
        chunkWithProof.proof.index = index ∧
        chunkWithProof.proof.rootHash lengthDigest =
          lengthDigest.hashIntoChunksIfNecessary (List.replicate (CHUNK_SIZE_BYTES + 1) 0)) ∧
    (∀ received : Nat → Option (ChunkWithProof Nat),
      (∀ index < ((List.replicate (CHUNK_SIZE_BYTES + 1) (0 : UInt8)).length + CHUNK_SIZE_BYTES - 1) / CHUNK_SIZE_BYTES,
        ∃ chunkWithProof, ChunkWithProof.new lengthDigest (List.replicate (CHUNK_SIZE_BYTES + 1) 0) index =
          some (.ok chunkWithProof) ∧ received index = some chunkWithProof) →
      PartialChunks.assembleChunks received
          (((List.replicate (CHUNK_SIZE_BYTES + 1) (0 : UInt8)).length + CHUNK_SIZE_BYTES - 1) / CHUNK_SIZE_BYTES) =
        List.replicate (CHUNK_SIZE_BYTES + 1) 0) ∧
    (∀ index, ((List.replicate (CHUNK_SIZE_BYTES + 1) (0 : UInt8)).length + CHUNK_SIZE_BYTES - 1) / CHUNK_SIZE_BYTES ≤ index →
      ChunkWithProof.new lengthDigest (List.replicate (CHUNK_SIZE_BYTES + 1) 0) index =
        some (.error (.indexOutOfBounds
          (((List.replicate (CHUNK_SIZE_BYTES + 1) (0 : UInt8)).length + CHUNK_SIZE_BYTES - 1) / CHUNK_SIZE_BYTES) index))) :=
  ⟨by simp, chunk_with_proof_round_trip lengthDigest (by simp)⟩

end CasperHashing
