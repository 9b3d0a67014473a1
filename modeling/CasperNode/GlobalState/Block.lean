import CasperNode.GlobalState.Scratch

/-!
Executing a block on the scratch state (`contract_runtime::operations`,
`execute_finalized_block`) against executing it on LMDB. What a deploy does is left open:
it reads keys through a view and ends in a commit of its effects, and a failed commit ends
the block. So a block is a list of requests, served either by LMDB, each commit going on
from the root the last one returned, or by the scratch state, with every view checked out
at the pre-state root and every commit given the state hash the last one returned; at the
end `write_scratch_to_db` writes the values the cache holds as written.

Reads and failures are the same on both, and the scratch state's values end on the root
LMDB ends on (`scratch_execution_matches_lmdb`). `keys_with_prefix` is not the same: a key
that a commit creates is listed by LMDB at once and never by a scratch view
(`scratch_keys_with_prefix_misses_commits`).
-/

namespace GlobalState

open TrieStore

variable {κ ν δ τ ε : Type}

/-- What executing a block asks of global state. -/
inductive Request (κ τ : Type) where
  | read (key : κ)
  | commit (effects : List (κ × τ))
  deriving DecidableEq, Repr

/-- The answer to a request. A commit's root is left out: the scratch state gives back the
state hash it was given. -/
inductive Answer (κ ν δ ε : Type) where
  | value (value : Option ν)
  | committed
  | failed (error : CommitError κ δ ε)
  deriving DecidableEq, Repr

section Runs

variable [DecidableEq κ] [DecidableEq ν] [DecidableEq δ] (ctx : TrieContext κ ν δ) (ops : TransformOps τ ν ε)

/-- A block on LMDB: reads at the root the last commit returned, commits from it. -/
def lmdbRun : (δ → Option (Trie κ ν δ)) → δ → List (Request κ τ) →
    Option (List (Answer κ ν δ ε) × (δ → Option (Trie κ ν δ)) × δ)
  | store, root, [] => some ([], store, root)
  | store, root, .read key :: requests =>
    match LmdbGlobalStateView.read ctx store root key with
    | none => none
    | some value => (lmdbRun store root requests).map fun (answers, final) => (.value value :: answers, final)
  | store, root, .commit effects :: requests =>
    match commit ctx ops store root effects with
    | none => none
    | some (.error error) => some ([.failed error], store, root)
    | some (.ok (store', root')) =>
      (lmdbRun store' root' requests).map fun (answers, final) => (.committed :: answers, final)

variable (store : δ → Option (Trie κ ν δ))

/-- A block on the scratch state: reads through a view checked out at the state hash, commits
given it, and the state hash each commit returns kept for the next. -/
def scratchRun : Cache κ ν → δ → List (Request κ τ) → Option (List (Answer κ ν δ ε) × Cache κ ν × δ)
  | cache, stateHash, [] => some ([], cache, stateHash)
  | cache, stateHash, .read key :: requests =>
    match (ScratchGlobalState.checkout store cache stateHash).bind fun view => view.read ctx store key with
    | none => none
    | some (value, cache') =>
      (scratchRun cache' stateHash requests).map fun (answers, final) => (.value value :: answers, final)
  | cache, stateHash, .commit effects :: requests =>
    match ScratchGlobalState.commit ctx ops store stateHash cache effects with
    | none => none
    | some (.error error, cache') => some ([.failed error], cache', stateHash)
    | some (.ok stateHash', cache') =>
      (scratchRun cache' stateHash' requests).map fun (answers, final) => (.committed :: answers, final)

/-- `write_scratch_to_db`: `put_stored_values` of the values the cache holds as written. -/
def writeScratchToDb (stateRootHash : δ) (cache : Cache κ ν) :
    Option (Except (CommitError κ δ ε) ((δ → Option (Trie κ ν δ)) × δ)) :=
  putStoredValues ctx store stateRootHash cache.intoDirtyWrites

end Runs

section Simulation

variable [DecidableEq κ] [DecidableEq ν] [DecidableEq δ] {ctx : TrieContext κ ν δ} (sound : ctx.Sound)
  (ops : TransformOps τ ν ε) {store : δ → Option (Trie κ ν δ)} {root : δ} {base : κ → Option ν}
  (rootHolds : RootHolds ctx store root base)
include sound rootHolds

/-- The run lemma: from a clean cache over the pre-state root and an LMDB root holding the
map the cache tracks, both serve the requests with the same answers, the scratch state keeps
its state hash and a clean cache, and unless a commit failed LMDB ends on a root holding the
map the final cache tracks. By induction on the requests, with the cache and LMDB's store
and root generalized. -/
theorem scratchRun_simulates {cache : Cache κ ν} (clean : cache.Clean base)
    {lmdbStore : δ → Option (Trie κ ν δ)} {lmdbRoot : δ}
    (lmdbHolds : RootHolds ctx lmdbStore lmdbRoot (cache.overlay base)) (requests : List (Request κ τ)) :
    ∃ answers lmdbFinal lmdbRoot' cache',
      lmdbRun ctx ops lmdbStore lmdbRoot requests = some (answers, lmdbFinal, lmdbRoot') ∧
      scratchRun ctx ops store cache root requests = some (answers, cache', root) ∧ cache'.Clean base ∧
      ((∀ error, Answer.failed error ∉ answers) → RootHolds ctx lmdbFinal lmdbRoot' (cache'.overlay base)) := by
  induction requests generalizing cache lmdbStore lmdbRoot with
  | nil => exact ⟨[], lmdbStore, lmdbRoot, cache, rfl, rfl, clean, fun _ => lmdbHolds⟩
  | cons request requests ih =>
    cases request with
    | read key =>
      have answered := LmdbGlobalStateView.read_of_rootHolds sound lmdbHolds key
      obtain ⟨cache', read, clean', unchanged⟩ := ScratchGlobalStateView.read_overlay sound rootHolds clean key
      rw [← unchanged] at lmdbHolds
      obtain ⟨answers, lmdbFinal, lmdbRoot', cache'', lmdbRan, scratchRan, clean'', holds⟩ := ih clean' lmdbHolds
      refine ⟨.value (cache.overlay base key) :: answers, lmdbFinal, lmdbRoot', cache'', ?_, ?_, clean'', ?_⟩
      · simp [lmdbRun, answered, lmdbRan]
      · simp [scratchRun, ScratchGlobalState.checkout_of_rootHolds rootHolds, read, scratchRan]
      · exact fun unfailed => holds fun error failed => unfailed error (List.mem_cons_of_mem _ failed)
    | commit effects =>
      obtain ⟨lmdbResult, lmdbCommitted, refines⟩ := commit_refines sound ops lmdbHolds effects
      obtain ⟨scratchResult, scratchCommitted, clean', scratchRefines⟩ :=
        ScratchGlobalState.commit_refines sound ops rootHolds clean effects
      -- both commits fail as the effects do on the map, or both leave the map they give
      cases applied : applyEffects ops (cache.overlay base) effects with
      | error error =>
        rw [applied, refines_error_iff] at refines
        rw [applied, scratchRefines_error_iff] at scratchRefines
        obtain ⟨cache', rfl⟩ := scratchRefines
        subst refines
        refine ⟨[.failed error], lmdbStore, lmdbRoot, cache', ?_, ?_, clean', ?_⟩
        · simp [lmdbRun, lmdbCommitted]
        · simp [scratchRun, scratchCommitted]
        · exact fun unfailed => absurd List.mem_cons_self (unfailed error)
      | ok entries =>
        rw [applied, refines_ok_iff] at refines
        rw [applied, scratchRefines_ok_iff] at scratchRefines
        obtain ⟨store', root', rfl, lmdbHolds'⟩ := refines
        obtain ⟨cache', rfl, tracked⟩ := scratchRefines
        rw [← tracked] at lmdbHolds'
        obtain ⟨answers, lmdbFinal, lmdbRoot', cache'', lmdbRan, scratchRan, clean'', holds⟩ := ih clean' lmdbHolds'
        refine ⟨.committed :: answers, lmdbFinal, lmdbRoot', cache'', ?_, ?_, clean'', ?_⟩
        · simp [lmdbRun, lmdbCommitted, lmdbRan]
        · simp [scratchRun, scratchCommitted, scratchRan]
        · exact fun unfailed => holds fun error failed => unfailed error (List.mem_cons_of_mem _ failed)

theorem scratch_execution_matches_lmdb (requests : List (Request κ τ)) :
    ∃ answers lmdbStore lmdbRoot cache stateHash,
      lmdbRun ctx ops store root requests = some (answers, lmdbStore, lmdbRoot) ∧
      scratchRun ctx ops store Cache.new root requests = some (answers, cache, stateHash) ∧
      ((∀ error, Answer.failed error ∉ answers) →
        ∀ storedValues, storedValues.Perm cache.intoDirtyWrites →
          ∃ store', (putStoredValues ctx store stateHash storedValues : Option (Except (CommitError κ δ ε) _)) =
            some (.ok (store', lmdbRoot))) := by
  obtain ⟨answers, lmdbStore, lmdbRoot, cache, lmdbRan, scratchRan, clean, holds⟩ :=
    scratchRun_simulates sound ops rootHolds Cache.clean_new (by simpa using rootHolds) requests
  refine ⟨answers, lmdbStore, lmdbRoot, cache, root, lmdbRan, scratchRan, fun unfailed storedValues order => ?_⟩
  obtain ⟨store', root', written, written_holds⟩ := putStoredValues_intoDirtyWrites ε sound rootHolds clean order
  -- the values written hold the map LMDB ends on, so they end on its root
  obtain rfl := written_holds.root_unique (holds unfailed)
  exact ⟨store', written⟩

/-- After a scratch commit writes a key absent at the pre-state root, a scratch view reads it,
but its `keys_with_prefix` does not list it; an LMDB view at the root the LMDB commit
returns lists it. -/
theorem scratch_keys_with_prefix_misses_commits {key : κ} {transform : τ} {value : ν} (absent : base key = none)
    (writes : ops.written transform = some value) {keyPrefix : List UInt8} (under : keyPrefix <+: ctx.keyBytes key) :
    ∃ cache store' root',
      ScratchGlobalState.commit ctx ops store root Cache.new [(key, transform)] = some (.ok root, cache) ∧
      commit ctx ops store root [(key, transform)] = some (.ok (store', root')) ∧
      (∃ cache', ScratchGlobalStateView.read ctx store ⟨cache, root⟩ key = some (some value, cache')) ∧
      LmdbGlobalStateView.read ctx store' root' key = some (some value) ∧
      (∃ fuel keys, ScratchGlobalStateView.keysWithPrefix ctx store fuel (keys.length + 1) ⟨cache, root⟩ keyPrefix =
        some keys ∧ key ∉ keys) ∧
      (∃ fuel keys, LmdbGlobalStateView.keysWithPrefix ctx store' fuel (keys.length + 1) root' keyPrefix =
        some keys ∧ key ∈ keys) := by
  have written : effectValue ops key (base key) transform = (.ok value : Except (CommitError κ δ ε) ν) := by
    simp [effectValue, absent, writes]
  have applied : applyEffects ops base [(key, transform)] =
      (.ok (Function.update base key (some value)) : Except (CommitError κ δ ε) _) := by
    simp [applyEffects, written]
  obtain ⟨lmdbResult, lmdbCommitted, refines⟩ := commit_refines sound ops rootHolds [(key, transform)]
  obtain ⟨scratchResult, scratchCommitted, clean, scratchRefines⟩ :=
    ScratchGlobalState.commit_refines sound ops rootHolds Cache.clean_new [(key, transform)]
  rw [Cache.overlay_new, applied, scratchRefines_ok_iff] at scratchRefines
  rw [applied, refines_ok_iff] at refines
  obtain ⟨cache, rfl, tracked⟩ := scratchRefines
  obtain ⟨store', root', rfl, lmdbHolds⟩ := refines
  obtain ⟨cache', read, -, -⟩ := ScratchGlobalStateView.read_overlay sound rootHolds clean key
  -- the scratch view lists the keys at the pre-state root, LMDB those of the map written
  obtain ⟨fuel, keys, collected, enumerates⟩ := rootHolds.collect_keysWithPrefix keyPrefix
  obtain ⟨fuel', keys', collected', enumerates'⟩ := lmdbHolds.collect_keysWithPrefix keyPrefix
  refine ⟨cache, store', root', scratchCommitted, lmdbCommitted, ⟨cache', by simpa [tracked] using read⟩,
    by simpa using LmdbGlobalStateView.read_of_rootHolds sound lmdbHolds key, ⟨fuel, keys, collected, ?_⟩,
    ⟨fuel', keys', collected', ?_⟩⟩
  · rw [enumerates.mem_iff]
    exact fun listed => listed.1 absent
  · rw [enumerates'.mem_iff]
    exact ⟨by simp, under⟩

end Simulation

/-- Effects made only of writes, the transform being the value it writes, as the checksum
registry's effect in `execute_finalized_block`. -/
def writesOnly (ν ε : Type) : TransformOps ν ν ε where
  apply newValue _ := .ok newValue
  written newValue := some newValue
  apply_of_written written _ := by cases written; rfl

theorem scratch_execution_matches_lmdb_on_empty :
    byteContext.Sound ∧ RootHolds byteContext (emptyStore byteContext) (emptyRoot byteContext) (fun _ => none) ∧
    ∃ answers lmdbStore lmdbRoot cache stateHash,
      lmdbRun byteContext (writesOnly UInt8 Unit) (emptyStore byteContext) (emptyRoot byteContext)
          [.commit [(7, 9)], .read 7] = some (answers, lmdbStore, lmdbRoot) ∧
      scratchRun byteContext (writesOnly UInt8 Unit) (emptyStore byteContext) Cache.new (emptyRoot byteContext)
          [.commit [(7, 9)], .read 7] = some (answers, cache, stateHash) ∧
      ((∀ error, Answer.failed error ∉ answers) →
        ∀ storedValues, storedValues.Perm cache.intoDirtyWrites →
          ∃ store', (putStoredValues byteContext (emptyStore byteContext) stateHash storedValues :
            Option (Except (CommitError UInt8 (List UInt8) Unit) _)) = some (.ok (store', lmdbRoot))) :=
  ⟨idealContext_sound _, rootHolds_empty _,
    scratch_execution_matches_lmdb (idealContext_sound _) (writesOnly UInt8 Unit) (rootHolds_empty _) _⟩

theorem scratch_keys_with_prefix_misses_commits_on_empty :
    byteContext.Sound ∧ RootHolds byteContext (emptyStore byteContext) (emptyRoot byteContext) (fun _ => none) ∧
    (fun _ => none : UInt8 → Option UInt8) 7 = none ∧ (writesOnly UInt8 Unit).written 9 = some 9 ∧
    [7] <+: byteContext.keyBytes 7 ∧
    ∃ cache store' root',
      ScratchGlobalState.commit byteContext (writesOnly UInt8 Unit) (emptyStore byteContext) (emptyRoot byteContext)
          Cache.new [(7, 9)] = some (.ok (emptyRoot byteContext), cache) ∧
      commit byteContext (writesOnly UInt8 Unit) (emptyStore byteContext) (emptyRoot byteContext) [(7, 9)] =
        some (.ok (store', root')) ∧
      (∃ cache', ScratchGlobalStateView.read byteContext (emptyStore byteContext) ⟨cache, emptyRoot byteContext⟩ 7 =
        some (some 9, cache')) ∧
      LmdbGlobalStateView.read byteContext store' root' 7 = some (some 9) ∧
      (∃ fuel keys, ScratchGlobalStateView.keysWithPrefix byteContext (emptyStore byteContext) fuel (keys.length + 1)
          ⟨cache, emptyRoot byteContext⟩ [7] = some keys ∧ 7 ∉ keys) ∧
      (∃ fuel keys, LmdbGlobalStateView.keysWithPrefix byteContext store' fuel (keys.length + 1) root' [7] =
          some keys ∧ 7 ∈ keys) :=
  ⟨idealContext_sound _, rootHolds_empty _, rfl, rfl, List.prefix_refl _,
    scratch_keys_with_prefix_misses_commits (idealContext_sound _) (writesOnly UInt8 Unit) (rootHolds_empty _)
      rfl rfl (List.prefix_refl _)⟩

end GlobalState
