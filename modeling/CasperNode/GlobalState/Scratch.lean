import CasperNode.GlobalState.Commit
import CasperNode.TrieStore.Keys

/-!
The scratch global state (`global_state/scratch.rs`), in which a block is executed in
memory. A commit writes its values into a cache and returns the state hash it was given;
a view reads the cache first and the trie at its root after; `write_scratch_to_db` writes
the values the cache holds as written with `put_stored_values`. The state and its views
share the cache (`Arc<RwLock<Cache>>`), so here every call is given it and returns it.

While `execute_finalized_block` runs, every view is checked out at the pre-state root and
every commit is given it. The cache then tracks the map the LMDB commits would have left
(`Cache.Clean`, `Cache.overlay`): commits fail alike, reads answer alike, and the values
written at the end give the root the LMDB commits end on. `keys_with_prefix` of a view
does not look at the cache and lists the keys at the pre-state root.
-/

namespace GlobalState

open TrieStore

variable {κ ν δ τ ε : Type}

/-- `Cache`: a `HashMap` from keys to a dirty flag and a value, so with distinct keys. -/
structure Cache (κ ν : Type) where
  cachedValues : List (κ × Bool × ν)
  nodup : (cachedValues.map Prod.fst).Nodup

namespace Cache

def new : Cache κ ν := ⟨[], List.nodup_nil⟩

/-- `into_dirty_writes`: the values written, without those only read. -/
def intoDirtyWrites (cache : Cache κ ν) : List (κ × ν) :=
  cache.cachedValues.filterMap fun (key, dirty, value) => if dirty then some (key, value) else none

variable [DecidableEq κ]

def insertWrite (cache : Cache κ ν) (key : κ) (value : ν) : Cache κ ν :=
  ⟨AssocList.insertValue key (true, value) cache.cachedValues,
    AssocList.nodup_keys_insertValue _ _ cache.nodup⟩

/-- `insert_read`: `entry(key).or_insert((false, value))`. -/
def insertRead (cache : Cache κ ν) (key : κ) (value : ν) : Cache κ ν :=
  match cache.cachedValues.lookup key with
  | some _ => cache
  | none =>
    ⟨AssocList.insertValue key (false, value) cache.cachedValues,
      AssocList.nodup_keys_insertValue _ _ cache.nodup⟩

def get (cache : Cache κ ν) (key : κ) : Option ν := (cache.cachedValues.lookup key).map (·.2)

/-- The map a view sees over a root holding `base`: the cached values, and the root's
where nothing is cached. -/
def overlay (cache : Cache κ ν) (base : κ → Option ν) (key : κ) : Option ν :=
  (cache.get key).or (base key)

/-- A value cached as only read is the root's. -/
def Clean (cache : Cache κ ν) (base : κ → Option ν) : Prop :=
  ∀ key value, cache.cachedValues.lookup key = some (false, value) → base key = some value

variable {cache : Cache κ ν} {base : κ → Option ν}

@[simp] theorem overlay_new : (new : Cache κ ν).overlay base = base := rfl

theorem clean_new : (new : Cache κ ν).Clean base := fun _ _ cached => by cases cached

theorem get_insertWrite (key : κ) (value : ν) (other : κ) :
    (cache.insertWrite key value).get other = if other = key then some value else cache.get other := by
  by_cases same : other = key
  · subst same
    simp [insertWrite, get, AssocList.lookup_insertValue_self]
  · simp [insertWrite, get, same, AssocList.lookup_insertValue_ne _ _ same]

theorem overlay_insertWrite (key : κ) (value : ν) :
    (cache.insertWrite key value).overlay base = Function.update (cache.overlay base) key (some value) := by
  funext other
  by_cases same : other = key
  · subst same
    simp [overlay, get_insertWrite]
  · simp [overlay, get_insertWrite, same]

theorem Clean.insertWrite (clean : cache.Clean base) (key : κ) (value : ν) :
    (cache.insertWrite key value).Clean base := by
  intro other found cached
  by_cases same : other = key
  · subst same
    simp [Cache.insertWrite, AssocList.lookup_insertValue_self] at cached
  · rw [Cache.insertWrite, AssocList.lookup_insertValue_ne _ _ same] at cached
    exact clean other found cached

theorem insertRead_of_get_eq_none {key : κ} {value : ν} (uncached : cache.get key = none)
    (stored : base key = some value) (clean : cache.Clean base) :
    (cache.insertRead key value).Clean base ∧ (cache.insertRead key value).overlay base = cache.overlay base := by
  have absent : cache.cachedValues.lookup key = none := by simpa [get] using uncached
  refine ⟨fun other found cached => ?_, funext fun other => ?_⟩
  · by_cases same : other = key
    · subst same
      simp only [insertRead, absent, AssocList.lookup_insertValue_self, Option.some.injEq, Prod.mk.injEq] at cached
      rw [stored, cached.2]
    · simp only [insertRead, absent, AssocList.lookup_insertValue_ne _ _ same] at cached
      exact clean other found cached
  · by_cases same : other = key
    · subst same
      simp [overlay, get, insertRead, absent, AssocList.lookup_insertValue_self, stored]
    · simp [overlay, get, insertRead, absent, AssocList.lookup_insertValue_ne _ _ same]

omit [DecidableEq κ] in
theorem mem_keys_intoDirtyWrites {key : κ} {cachedValues : List (κ × Bool × ν)} :
    key ∈ (cachedValues.filterMap fun (key, dirty, value) => if dirty then some (key, value) else none).map
        Prod.fst → key ∈ cachedValues.map Prod.fst := by
  induction cachedValues with
  | nil => simp
  | cons entry rest ih =>
    obtain ⟨key', dirty, value⟩ := entry
    intro written
    rw [List.map_cons, List.mem_cons]
    cases dirty
    · simp only [List.filterMap_cons, Bool.false_eq_true, if_false] at written
      exact Or.inr (ih written)
    · simp only [List.filterMap_cons, if_true, List.map_cons, List.mem_cons] at written
      exact written.imp_right ih

/-- A key is written once, with the value cached for it. By induction on the cached entries,
whose keys are distinct. -/
theorem lookup_intoDirtyWrites (key : κ) :
    cache.intoDirtyWrites.lookup key = match cache.cachedValues.lookup key with
      | some (true, value) => some value
      | _ => none := by
  obtain ⟨cachedValues, nodup⟩ := cache
  simp only [intoDirtyWrites]
  induction cachedValues with
  | nil => rfl
  | cons entry rest ih =>
    obtain ⟨key', dirty, value⟩ := entry
    rw [List.map_cons, List.nodup_cons] at nodup
    by_cases same : key = key'
    · subst same
      have unwritten := AssocList.lookup_eq_none_of_not_mem fun written => nodup.1 (mem_keys_intoDirtyWrites written)
      cases dirty
      · simpa using unwritten
      · simp
    · rw [AssocList.lookup_cons_ne _ _ same, ← ih nodup.2]
      cases dirty
      · simp
      · simp [AssocList.lookup_cons_ne _ _ same]

omit [DecidableEq κ] in
theorem nodup_keys_intoDirtyWrites (cache : Cache κ ν) : (cache.intoDirtyWrites.map Prod.fst).Nodup := by
  obtain ⟨cachedValues, nodup⟩ := cache
  simp only [intoDirtyWrites]
  induction cachedValues with
  | nil => simp
  | cons entry rest ih =>
    obtain ⟨key, dirty, value⟩ := entry
    rw [List.map_cons, List.nodup_cons] at nodup
    cases dirty
    · simpa only [List.filterMap_cons, Bool.false_eq_true, if_false] using ih nodup.2
    · simp only [List.filterMap_cons, if_true, List.map_cons, List.nodup_cons]
      exact ⟨fun written => nodup.1 (mem_keys_intoDirtyWrites written), ih nodup.2⟩

theorem applyAll_intoDirtyWrites (clean : cache.Clean base) {storedValues : List (κ × ν)}
    (order : storedValues.Perm cache.intoDirtyWrites) :
    Operation.applyAll (Operation.writeAll storedValues) base = cache.overlay base := by
  have distinct := cache.nodup_keys_intoDirtyWrites
  rw [Operation.applyAll_writeAll_perm ((order.map Prod.fst).nodup_iff.mpr distinct) order]
  funext key
  rw [Operation.applyAll_writeAll_apply distinct, lookup_intoDirtyWrites, overlay, get]
  rcases cached : cache.cachedValues.lookup key with _ | ⟨_ | _, value⟩
  · rfl
  · simp [clean key value cached]
  · rfl

end Cache

/-- A view of the scratch state: the cache it shares, and the root it reads. -/
structure ScratchGlobalStateView (κ ν δ : Type) where
  cache : Cache κ ν
  rootHash : δ

section Scratch

variable [DecidableEq κ] (ctx : TrieContext κ ν δ) (ops : TransformOps τ ν ε) (store : δ → Option (Trie κ ν δ))

/-- The match of `ScratchGlobalState::commit` on the cached value and the transform: a value
not cached is read from the trie at `stateHash`, unless the transform is a write. -/
def scratchValue (stateHash : δ) (key : κ) (transform : τ) :
    Option ν → Option (Except (CommitError κ δ ε) ν)
  | none =>
    match ops.written transform with
    | some newValue => some (.ok newValue)
    | none =>
      match read ctx store stateHash key with
      | none => none
      | some (.found currentValue) => some ((ops.apply transform currentValue).mapError .transformError)
      | some .notFound => some (.error (.keyNotFound key))
      | some .rootNotFound => some (.error (.readRootNotFound stateHash))
  | some currentValue => some ((ops.apply transform currentValue).mapError .transformError)

/-- `ScratchGlobalState::commit`: the values go into the cache, those before a failing
effect too, and the state hash comes back as it was given. -/
def ScratchGlobalState.commit (stateHash : δ) :
    Cache κ ν → List (κ × τ) → Option (Except (CommitError κ δ ε) δ × Cache κ ν)
  | cache, [] => some (.ok stateHash, cache)
  | cache, (key, transform) :: effects =>
    match scratchValue ctx ops store stateHash key transform (cache.get key) with
    | none => none
    | some (.error error) => some (.error error, cache)
    | some (.ok value) => ScratchGlobalState.commit stateHash (cache.insertWrite key value) effects

/-- `checkout`: a view at a root the store holds. -/
def ScratchGlobalState.checkout (cache : Cache κ ν) (stateHash : δ) : Option (ScratchGlobalStateView κ ν δ) :=
  (store stateHash).map fun _ => ⟨cache, stateHash⟩

/-- `ScratchGlobalStateView::read`: a value found in the trie is cached as read, and a
missing root panics (`none`). -/
def ScratchGlobalStateView.read (view : ScratchGlobalStateView κ ν δ) (key : κ) : Option (Option ν × Cache κ ν) :=
  match view.cache.get key with
  | some value => some (some value, view.cache)
  | none =>
    match TrieStore.read ctx store view.rootHash key with
    | some (.found value) => some (some value, view.cache.insertRead key value)
    | some .notFound => some (none, view.cache)
    | _ => none

/-- `LmdbGlobalStateView::read`. -/
def LmdbGlobalStateView.read (rootHash : δ) (key : κ) : Option (Option ν) :=
  match TrieStore.read ctx store rootHash key with
  | some (.found value) => some (some value)
  | some .notFound => some none
  | _ => none

/-- `LmdbGlobalStateView::keys_with_prefix`, the iterator at the view's root with `fuel` and
`calls` as in `KeysIterator.collect`. -/
def LmdbGlobalStateView.keysWithPrefix (fuel calls : Nat) (rootHash : δ) (keyPrefix : List UInt8) :
    Option (List κ) :=
  KeysIterator.collect ctx store fuel calls (TrieStore.keysWithPrefix store rootHash keyPrefix)

/-- `ScratchGlobalStateView::keys_with_prefix`: the iterator at the view's root, as for an
LMDB view; the cache is not read. -/
def ScratchGlobalStateView.keysWithPrefix (fuel calls : Nat) (view : ScratchGlobalStateView κ ν δ)
    (keyPrefix : List UInt8) : Option (List κ) :=
  KeysIterator.collect ctx store fuel calls (TrieStore.keysWithPrefix store view.rootHash keyPrefix)

end Scratch

/-- A scratch commit's result against what the effects do to the map the cache tracks: the
same error, or the state hash it was given and a cache tracking the map they leave. -/
def ScratchRefines [DecidableEq κ] (stateHash : δ) (base : κ → Option ν) :
    Except (CommitError κ δ ε) (κ → Option ν) → Except (CommitError κ δ ε) δ × Cache κ ν → Prop
  | .error error, (.error error', _) => error = error'
  | .ok entries, (.ok stateHash', cache) => stateHash' = stateHash ∧ cache.overlay base = entries
  | _, _ => False

section ScratchRefines

variable [DecidableEq κ] {stateHash : δ} {base : κ → Option ν} {result : Except (CommitError κ δ ε) δ × Cache κ ν}

@[simp] theorem scratchRefines_error_iff {error : CommitError κ δ ε} :
    ScratchRefines stateHash base (.error error) result ↔ ∃ cache, result = (.error error, cache) := by
  rcases result with ⟨error' | stateHash', cache⟩
  · simp [ScratchRefines, eq_comm]
  · simp [ScratchRefines]

@[simp] theorem scratchRefines_ok_iff {entries : κ → Option ν} :
    ScratchRefines stateHash base (.ok entries) result ↔
      ∃ cache, result = (.ok stateHash, cache) ∧ cache.overlay base = entries := by
  rcases result with ⟨error' | stateHash', cache⟩
  · simp [ScratchRefines]
  · simp [ScratchRefines]

end ScratchRefines

section Tracking

variable [DecidableEq κ] {ctx : TrieContext κ ν δ} (sound : ctx.Sound) (ops : TransformOps τ ν ε)
  {store : δ → Option (Trie κ ν δ)} {root : δ} {base : κ → Option ν} (rootHolds : RootHolds ctx store root base)
include sound rootHolds

theorem scratchValue_eq (cache : Cache κ ν) (key : κ) (transform : τ) :
    scratchValue ctx ops store root key transform (cache.get key) =
      some (effectValue ops key (cache.overlay base key) transform) := by
  cases cached : cache.get key with
  | some value => simp [scratchValue, effectValue, Cache.overlay, cached]
  | none =>
    have uncached : cache.overlay base key = base key := by simp [Cache.overlay, cached]
    rw [uncached]
    -- a write is answered without reading; the LMDB match applies it to what it reads
    cases written : ops.written transform with
    | some newValue =>
      cases entry : base key with
      | none => simp [scratchValue, effectValue, written]
      | some currentValue => simp [scratchValue, effectValue, written, ops.apply_of_written written]
    | none => cases entry : base key <;> simp [scratchValue, effectValue, written, rootHolds.read sound key, entry]

/-- The run lemma of the scratch commit: it fails as the effects do on the map the cache
tracks, or tracks the map they leave; and the cache stays clean either way. By induction on
the effects, with the cache generalized. -/
theorem ScratchGlobalState.commit_refines {cache : Cache κ ν} (clean : cache.Clean base) (effects : List (κ × τ)) :
    ∃ result, ScratchGlobalState.commit ctx ops store root cache effects = some result ∧ result.2.Clean base ∧
      ScratchRefines root base (applyEffects ops (cache.overlay base) effects) result := by
  induction effects generalizing cache with
  | nil => exact ⟨_, rfl, clean, rfl, rfl⟩
  | cons effect effects ih =>
    obtain ⟨key, transform⟩ := effect
    have valued := scratchValue_eq sound ops rootHolds cache key transform
    cases effected : effectValue ops key (cache.overlay base key) transform with
    | error error =>
      refine ⟨(.error error, cache), by simp [ScratchGlobalState.commit, valued, effected], clean, ?_⟩
      simp [applyEffects, effected, ScratchRefines]
    | ok value =>
      obtain ⟨result, committed, clean', refines⟩ := ih (clean.insertWrite key value)
      rw [Cache.overlay_insertWrite] at refines
      refine ⟨result, by simp [ScratchGlobalState.commit, valued, effected, committed], clean', ?_⟩
      simpa [applyEffects, effected] using refines

/-- The step lemma of a read: it answers the map the view sees, and what it caches changes
nothing of that map. -/
theorem ScratchGlobalStateView.read_overlay {cache : Cache κ ν} (clean : cache.Clean base) (key : κ) :
    ∃ cache', ScratchGlobalStateView.read ctx store ⟨cache, root⟩ key = some (cache.overlay base key, cache') ∧
      cache'.Clean base ∧ cache'.overlay base = cache.overlay base := by
  cases cached : cache.get key with
  | some value => exact ⟨cache, by simp [ScratchGlobalStateView.read, Cache.overlay, cached], clean, rfl⟩
  | none =>
    cases entry : base key with
    | none =>
      refine ⟨cache, ?_, clean, rfl⟩
      simp [ScratchGlobalStateView.read, Cache.overlay, cached, rootHolds.read sound key, entry]
    | some value =>
      obtain ⟨clean', unchanged⟩ := Cache.insertRead_of_get_eq_none cached entry clean
      refine ⟨_, ?_, clean', unchanged⟩
      simp [ScratchGlobalStateView.read, Cache.overlay, cached, rootHolds.read sound key, entry]

omit sound in
theorem ScratchGlobalState.checkout_of_rootHolds (cache : Cache κ ν) :
    ScratchGlobalState.checkout store cache root = some ⟨cache, root⟩ := by
  obtain ⟨pointerBlock, stored⟩ := rootHolds.stored
  simp [ScratchGlobalState.checkout, stored]

theorem LmdbGlobalStateView.read_of_rootHolds (key : κ) :
    LmdbGlobalStateView.read ctx store root key = some (base key) := by
  cases entry : base key <;> simp [LmdbGlobalStateView.read, rootHolds.read sound key, entry]

variable [DecidableEq ν] [DecidableEq δ]

variable (ε) in
omit ops in
/-- `put_stored_values` of the dirty values, in any order, gives a root holding the map the
view sees. -/
theorem putStoredValues_intoDirtyWrites {cache : Cache κ ν} (clean : cache.Clean base)
    {storedValues : List (κ × ν)} (order : storedValues.Perm cache.intoDirtyWrites) :
    ∃ store' root', (putStoredValues ctx store root storedValues : Option (Except (CommitError κ δ ε) _)) =
        some (.ok (store', root')) ∧ RootHolds ctx store' root' (cache.overlay base) := by
  obtain ⟨store', root', written, rootHolds'⟩ := putStoredValues_of_rootHolds ε sound rootHolds storedValues
  rw [Cache.applyAll_intoDirtyWrites clean order] at rootHolds'
  exact ⟨store', root', written, rootHolds'⟩

end Tracking

end GlobalState
