import CasperNode.TrieStore.Delete
import CasperNode.TrieStore.IdealHash

/-!
The trie store as a finite map. A root is well formed when its trie holds some map of
keys to values (`RootHolds`); `read` answers from that map, `write` and `delete` return
well-formed roots holding the map with one entry set or removed, and none of the three
fails on a well-formed root.
-/

namespace TrieStore

open ContentStore

variable {κ ν δ : Type} [DecidableEq κ] {ctx : TrieContext κ ν δ}

/-- The structure invariant of `check_integrity`: the root's trie holds some map. -/
def WellFormed (ctx : TrieContext κ ν δ) (store : δ → Option (Trie κ ν δ)) (root : δ) : Prop :=
  ∃ entries, RootHolds ctx store root entries

section Empty

variable [DecidableEq δ] (ctx)

/-- The store holding only the empty root node, as `create_hashed_empty_trie` makes it. -/
def emptyStore : δ → Option (Trie κ ν δ) :=
  put (fun _ => none) (ctx.trieHash (.node .new)) (.node .new)

def emptyRoot : δ := ctx.trieHash (.node (.new : PointerBlock δ) : Trie κ ν δ)

theorem rootHolds_empty : RootHolds ctx (emptyStore ctx) (emptyRoot ctx) (fun _ => none) :=
  ⟨.new, rfl, by simp [emptyStore, emptyRoot, put], holds_new _⟩

end Empty

@[simp] theorem ReadResult.ofEntry_some (value : ν) : ReadResult.ofEntry (some value) = .found value := rfl

@[simp] theorem ReadResult.ofEntry_none : ReadResult.ofEntry (none : Option ν) = .notFound := rfl

section Runs

/-- A write or a delete, as a caller of the trie store issues them. -/
inductive Operation (κ ν : Type) where
  | write (key : κ) (value : ν)
  | delete (key : κ)
  deriving DecidableEq, Repr

/-- The map an operation leaves behind. -/
def Operation.apply : Operation κ ν → (κ → Option ν) → κ → Option ν
  | .write key value, entries => Function.update entries key (some value)
  | .delete key, entries => Function.update entries key none

def Operation.applyAll : List (Operation κ ν) → (κ → Option ν) → κ → Option ν
  | [], entries => entries
  | operation :: operations, entries => applyAll operations (operation.apply entries)

/-- One write for each key and value, in order. -/
def Operation.writeAll (writes : List (κ × ν)) : List (Operation κ ν) :=
  writes.map fun write => .write write.1 write.2

variable [DecidableEq ν] [DecidableEq δ]

/-- One operation on a root, going on from the root it returns; an answer that changes
nothing (`AlreadyExists`, `DoesNotExist`) keeps the root, a missing root stops the run. -/
def Operation.run (ctx : TrieContext κ ν δ) :
    Operation κ ν → (δ → Option (Trie κ ν δ)) × δ → Option ((δ → Option (Trie κ ν δ)) × δ)
  | .write key value, (store, root) =>
    match TrieStore.write ctx store root key value with
    | some (.written root', store') => some (store', root')
    | some (.alreadyExists, store') => some (store', root)
    | _ => none
  | .delete key, (store, root) =>
    match TrieStore.delete ctx store root key with
    | some (.deleted root', store') => some (store', root')
    | some (.doesNotExist, store') => some (store', root)
    | _ => none

def runOperations (ctx : TrieContext κ ν δ) :
    List (Operation κ ν) → (δ → Option (Trie κ ν δ)) × δ → Option ((δ → Option (Trie κ ν δ)) × δ)
  | [], state => some state
  | operation :: operations, state => (operation.run ctx state).bind (runOperations ctx operations)

variable {store : δ → Option (Trie κ ν δ)} (sound : ctx.Sound)
include sound

theorem RootHolds.run {root : δ} {entries : κ → Option ν} (rootHolds : RootHolds ctx store root entries)
    (operation : Operation κ ν) :
    ∃ store' root', operation.run ctx (store, root) = some (store', root') ∧
      RootHolds ctx store' root' (operation.apply entries) := by
  cases operation with
  | write key value =>
    obtain ⟨result, store', root', written, outcome, rootHolds', -⟩ := rootHolds.write sound key value
    rcases outcome with rfl | ⟨rfl, rfl, rfl⟩
    · exact ⟨_, _, by simp [Operation.run, written], rootHolds'⟩
    · exact ⟨_, _, by simp [Operation.run, written], rootHolds'⟩
  | delete key =>
    obtain ⟨result, store', deleted, outcome⟩ := rootHolds.delete sound key
    rcases outcome with ⟨absent, rfl, rfl⟩ | ⟨-, root', rfl, rootHolds', -⟩
    · -- deleting an absent key leaves the map as it was
      have unchanged : Function.update entries key none = entries := Function.update_eq_self_iff.mpr absent.symm
      rw [← unchanged] at rootHolds
      exact ⟨_, _, by simp [Operation.run, deleted], rootHolds⟩
    · exact ⟨_, _, by simp [Operation.run, deleted], rootHolds'⟩

/-- The run lemma, by induction on the operations. -/
theorem RootHolds.runOperations {root : δ} {entries : κ → Option ν} (rootHolds : RootHolds ctx store root entries)
    (operations : List (Operation κ ν)) :
    ∃ store' root', TrieStore.runOperations ctx operations (store, root) = some (store', root') ∧
      RootHolds ctx store' root' (Operation.applyAll operations entries) := by
  induction operations generalizing store root entries with
  | nil => exact ⟨store, root, rfl, rootHolds⟩
  | cons operation operations ih =>
    obtain ⟨store', root', ran, rootHolds'⟩ := rootHolds.run sound operation
    obtain ⟨store'', root'', ranAll, rootHolds''⟩ := ih rootHolds'
    exact ⟨store'', root'', by simp [TrieStore.runOperations, ran, ranAll], rootHolds''⟩

end Runs

section Sound

variable [DecidableEq ν] [DecidableEq δ] {store : δ → Option (Trie κ ν δ)} (sound : ctx.Sound)
include sound

omit [DecidableEq ν] in
theorem RootHolds.deleted {root : δ} {entries : κ → Option ν} (rootHolds : RootHolds ctx store root entries)
    (key : κ) :
    ∃ result store', TrieStore.delete ctx store root key = some (result, store') ∧
      (result = .doesNotExist ↔ entries key = none) ∧
      ∀ root', result = .deleted root' → RootHolds ctx store' root' (Function.update entries key none) := by
  obtain ⟨result, store', deleted, outcome⟩ := rootHolds.delete sound key
  refine ⟨result, store', deleted, ?_, fun root' isDeleted => ?_⟩
  · rcases outcome with ⟨absent, rfl, -⟩ | ⟨present, root', rfl, -⟩
    · simp [absent]
    · simp [present]
  · rcases outcome with ⟨-, rfl, -⟩ | ⟨-, root'', rfl, rootHolds', -⟩
    · cases isDeleted
    · obtain rfl : root'' = root' := by simpa using isDeleted
      exact rootHolds'

theorem trie_store_refines_map {root : δ} {entries : κ → Option ν}
    (wellFormed : RootHolds ctx store root entries) (key : κ) (value : ν) :
    (∀ other, read ctx store root other = some (.ofEntry (entries other))) ∧
    (∃ result store' root', write ctx store root key value = some (result, store') ∧
      (result = .written root' ∨ result = .alreadyExists ∧ root' = root) ∧
      ∀ other, read ctx store' root' other =
        if other = key then some (.found value) else read ctx store root other) ∧
    (∃ result store', delete ctx store root key = some (result, store') ∧
      (read ctx store root key = some .notFound ∧ result = .doesNotExist ∨
        read ctx store root key ≠ some .notFound ∧ ∃ root', result = .deleted root' ∧
          read ctx store' root' key = some .notFound ∧
          ∀ other, other ≠ key → read ctx store' root' other = read ctx store root other)) := by
  have reads := fun other => wellFormed.read sound other
  refine ⟨reads, ?_, ?_⟩
  · obtain ⟨result, store', root', written, outcome, rootHolds', -⟩ := wellFormed.write sound key value
    refine ⟨result, store', root', written, outcome.imp_right fun facts => ⟨facts.1, facts.2.1⟩,
      fun other => ?_⟩
    rw [rootHolds'.read sound other, reads other]
    by_cases same : other = key
    · subst same
      simp
    · simp [same]
  · -- an absent key is not found and left alone; a present one is deleted and reads as absent
    obtain ⟨result, store', deleted, outcome⟩ := wellFormed.delete sound key
    refine ⟨result, store', deleted, ?_⟩
    rcases outcome with ⟨absent, rfl, -⟩ | ⟨present, root', rfl, rootHolds', -⟩
    · exact .inl ⟨by rw [reads key, absent]; rfl, rfl⟩
    · refine .inr ⟨?_, root', rfl, by simp [rootHolds'.read sound key], fun other distinct => ?_⟩
      · obtain ⟨found, entry⟩ := Option.ne_none_iff_exists'.mp present
        simp [reads key, entry]
      · rw [rootHolds'.read sound other, reads other, Function.update_of_ne distinct]

/-- `write` and `delete` keep the structure invariant. -/
theorem write_delete_keep_structure {root : δ} (wellFormed : WellFormed ctx store root) (key : κ) (value : ν) :
    (∃ result store' root', write ctx store root key value = some (result, store') ∧
      (result = .written root' ∨ result = .alreadyExists ∧ root' = root) ∧ WellFormed ctx store' root') ∧
    (∃ result store', delete ctx store root key = some (result, store') ∧
      ∀ root', result = .deleted root' → WellFormed ctx store' root') := by
  obtain ⟨entries, rootHolds⟩ := wellFormed
  obtain ⟨result, store', root', written, outcome, rootHolds', -⟩ := rootHolds.write sound key value
  obtain ⟨result'', store'', deleted, -, rebuilt⟩ := rootHolds.deleted sound key
  exact ⟨⟨result, store', root', written, outcome.imp_right fun facts => ⟨facts.1, facts.2.1⟩, _, rootHolds'⟩,
    result'', store'', deleted, fun root'' isDeleted => ⟨_, rebuilt root'' isDeleted⟩⟩

end Sound

/-- Two writes whose keys share their first two bytes: the second splits the first leaf under an
extension of the shared byte. -/
def sharedPrefixWrites : List (Operation (UInt8 × UInt8 × UInt8) UInt8) :=
  Operation.writeAll [((1, 2, 3), 5), ((1, 2, 4), 6)]

/-- On the store the two writes leave, writing one of the keys again and deleting it, which
collapses the extension. -/
theorem trie_store_refines_map_on_shared_prefix :
    ∃ store root, runOperations tripleContext sharedPrefixWrites (emptyStore tripleContext, emptyRoot tripleContext) =
        some (store, root) ∧ read tripleContext store root (1, 2, 4) = some (.found 6) ∧
      (∀ other, read tripleContext store root other =
          some (.ofEntry (Operation.applyAll sharedPrefixWrites (fun _ => none) other))) ∧
      (∃ result store' root', write tripleContext store root (1, 2, 4) 7 = some (result, store') ∧
        (result = .written root' ∨ result = .alreadyExists ∧ root' = root) ∧
        ∀ other, read tripleContext store' root' other =
          if other = (1, 2, 4) then some (.found 7) else read tripleContext store root other) ∧
      (∃ result store', delete tripleContext store root (1, 2, 4) = some (result, store') ∧
        (read tripleContext store root (1, 2, 4) = some .notFound ∧ result = .doesNotExist ∨
          read tripleContext store root (1, 2, 4) ≠ some .notFound ∧ ∃ root', result = .deleted root' ∧
            read tripleContext store' root' (1, 2, 4) = some .notFound ∧
            ∀ other, other ≠ (1, 2, 4) → read tripleContext store' root' other = read tripleContext store root other)) := by
  obtain ⟨store, root, ran, rootHolds⟩ :=
    (rootHolds_empty tripleContext).runOperations tripleContext_sound sharedPrefixWrites
  have found : read tripleContext store root (1, 2, 4) = some (.found 6) := by
    rw [rootHolds.read tripleContext_sound]
    rfl
  exact ⟨store, root, ran, found, trie_store_refines_map tripleContext_sound rootHolds (1, 2, 4) 7⟩

/-- The same store: deleting the second key takes the branch that rebuilds the parents. -/
theorem write_delete_keep_structure_on_shared_prefix :
    ∃ store root, runOperations tripleContext sharedPrefixWrites (emptyStore tripleContext, emptyRoot tripleContext) =
        some (store, root) ∧ WellFormed tripleContext store root ∧
      (∃ root' store', delete tripleContext store root (1, 2, 4) = some (.deleted root', store')) ∧
      (∃ result store' root', write tripleContext store root (1, 2, 4) 7 = some (result, store') ∧
        (result = .written root' ∨ result = .alreadyExists ∧ root' = root) ∧ WellFormed tripleContext store' root') ∧
      (∃ result store', delete tripleContext store root (1, 2, 4) = some (result, store') ∧
        ∀ root', result = .deleted root' → WellFormed tripleContext store' root') := by
  obtain ⟨store, root, ran, rootHolds⟩ :=
    (rootHolds_empty tripleContext).runOperations tripleContext_sound sharedPrefixWrites
  have deletes : ∃ root' store', delete tripleContext store root (1, 2, 4) = some (.deleted root', store') := by
    obtain ⟨result, store', deleted, outcome⟩ := rootHolds.delete tripleContext_sound (1, 2, 4)
    rcases outcome with ⟨absent, -⟩ | ⟨-, root', rfl, -⟩
    · have entry : Operation.applyAll sharedPrefixWrites (fun _ => none) (1, 2, 4) = some 6 := rfl
      rw [entry] at absent
      cases absent
    · exact ⟨root', store', deleted⟩
  exact ⟨store, root, ran, ⟨_, rootHolds⟩, deletes,
    write_delete_keep_structure tripleContext_sound ⟨_, rootHolds⟩ (1, 2, 4) 7⟩

end TrieStore
