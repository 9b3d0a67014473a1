import CasperNode.TrieStore.Refinement
import CasperNode.Lib.AssocList

/-!
The shape of a trie is a function of the map it holds. Below the root, one entry is a
leaf; entries that all share a further byte sit below an extension as long as the
longest such shared run; entries that differ at the next byte sit under a node, each
child holding those below its index. So two tries that hold the same map at the same
position are equal, whatever stores hold their children, and the root digest after any
sequence of writes and deletes depends only on the map it leaves.
-/

namespace TrieStore

open ContentStore

variable {κ ν δ : Type} [DecidableEq κ] {ctx : TrieContext κ ν δ}

section Unique

variable {store store' : δ → Option (Trie κ ν δ)}

theorem Holds.not_allUnder_next {path : List UInt8} {pointerBlock : PointerBlock δ} {entries : κ → Option ν}
    (holds : Holds ctx store path (.node pointerBlock) entries) (notRoot : path ≠ []) (next : UInt8) :
    ¬ AllUnder ctx (path ++ [next]) entries := by
  intro under
  cases holds with
  | node linked child _ _ branching =>
  obtain ⟨first, second, distinct, hasFirst, hasSecond⟩ :=
    PointerBlock.two_le_childCount_iff.mp (branching notRoot)
  -- each of the two children holds an entry below its own index
  have entryBelow : ∀ index, (pointerBlock.get index).isSome → index = next := by
    intro index present
    obtain ⟨pointer, found⟩ := Option.isSome_iff_exists.mp present
    obtain ⟨trie, stored, -⟩ := linked index pointer found
    obtain ⟨key, entry⟩ := (child index pointer trie found stored).nonempty (by simp)
    have onIndex : path ++ [index] <+: ctx.keyBytes key := by
      by_contra offIndex
      exact entry (underPath_of_offPath offIndex)
    rw [underPath_of_onPath onIndex] at entry
    exact List.eq_of_append_singleton_prefixes onIndex (under key entry)
  exact distinct ((entryBelow first hasFirst).trans (entryBelow second hasSecond).symm)

theorem Holds.not_allUnder_of_extension {path affix : List UInt8} {pointer : Pointer δ}
    {entries : κ → Option ν} (holds : Holds ctx store path (.extension affix pointer) entries) (next : UInt8) :
    ¬ AllUnder ctx (path ++ affix ++ [next]) entries := by
  obtain ⟨target, -, -, nonempty, -, holdsTarget⟩ := holds.extension_inv
  exact holdsTarget.not_allUnder_next (by simp [nonempty]) next

theorem allUnder_single_next {path : List UInt8} {key : κ} (onPath : path <+: ctx.keyBytes key)
    (longer : path.length < (ctx.keyBytes key).length) (value : ν) :
    AllUnder ctx (path ++ [(ctx.keyBytes key)[path.length]]) (single key value) :=
  allUnder_single (List.prefix_append_getElem onPath longer) value

theorem Holds.ne_single_of_node {path : List UInt8} {pointerBlock : PointerBlock δ} {key : κ} {value : ν}
    (holds : Holds ctx store path (.node pointerBlock) (single key value)) (notRoot : path ≠ []) : False := by
  have below : path <+: ctx.keyBytes key ∧ path.length < (ctx.keyBytes key).length := by
    cases holds with
    | node _ _ _ below => exact below key (by simp [single])
  exact holds.not_allUnder_next notRoot _ (allUnder_single_next below.1 below.2 value)

theorem Holds.ne_single_of_extension {path affix : List UInt8} {pointer : Pointer δ} {key : κ} {value : ν}
    (holds : Holds ctx store path (.extension affix pointer) (single key value)) : False := by
  obtain ⟨target, -, -, nonempty, -, holdsTarget⟩ := holds.extension_inv
  exact holdsTarget.ne_single_of_node (by simp [nonempty])

theorem Holds.affix_eq {path affix affix' : List UInt8} {pointer pointer' : Pointer δ}
    {entries : κ → Option ν} (holds : Holds ctx store path (.extension affix pointer) entries)
    (holds' : Holds ctx store' path (.extension affix' pointer') entries) (shorter : affix.length ≤ affix'.length) :
    affix = affix' := by
  obtain ⟨key, present⟩ := holds.nonempty (holds.extension_inv.choose_spec.2.1)
  have onAffix := holds.allUnder_affix key present
  have onAffix' := holds'.allUnder_affix key present
  have longer : path ++ affix <+: path ++ affix' :=
    List.prefix_of_prefix_length_le onAffix onAffix' (by simp [shorter])
  have within : affix <+: affix' := (List.prefix_append_right_inj path).mp longer
  by_contra distinct
  -- the longer affix fixes the byte at which the shorter one's node parts its entries
  have strictly : affix.length < affix'.length :=
    lt_of_le_of_ne shorter fun same => distinct (within.eq_of_length same)
  have next := List.prefix_append_getElem within strictly
  refine holds.not_allUnder_of_extension affix'[affix.length] (holds'.allUnder_affix.mono ?_)
  rw [List.append_assoc]
  exact (List.prefix_append_right_inj path).mpr next

/-- Tries that hold the same entries at one position are equal, when that position is
below the root or both are nodes. By induction on the first trie. -/
theorem Holds.unique {path : List UInt8} {trie trie' : Trie κ ν δ} {entries : κ → Option ν}
    (holds : Holds ctx store path trie entries) (holds' : Holds ctx store' path trie' entries)
    (fits : path ≠ [] ∨ (∃ pointerBlock, trie = .node pointerBlock) ∧ ∃ pointerBlock, trie' = .node pointerBlock) :
    trie = trie' := by
  induction holds generalizing trie' with
  | @leaf path key value onPath =>
    have notRoot : path ≠ [] := fits.resolve_right (by rintro ⟨⟨_, isNode⟩, _⟩; cases isNode)
    cases trie' with
    | leaf key' value' =>
      have same := holds'.leaf_entries
      have atKey := congrFun same key
      simp only [single, ↓reduceIte] at atKey
      split_ifs at atKey with isKey
      subst isKey
      rw [Option.some.inj atKey]
    | node pointerBlock => exact (holds'.ne_single_of_node notRoot).elim
    | extension affix pointer => exact holds'.ne_single_of_extension.elim
  | @node path pointerBlock entries linked child vacant below branching ih =>
    have holds := Holds.node linked child vacant below branching
    cases trie' with
    | leaf key value =>
      have notRoot : path ≠ [] := fits.resolve_right (by rintro ⟨_, ⟨_, isNode⟩⟩; cases isNode)
      rw [holds'.leaf_entries] at holds
      exact (holds.ne_single_of_node notRoot).elim
    | extension affix pointer =>
      have notRoot : path ≠ [] := fits.resolve_right (by rintro ⟨_, ⟨_, isNode⟩⟩; cases isNode)
      obtain ⟨-, -, -, nonempty, -, -⟩ := holds'.extension_inv
      exact (holds.not_allUnder_next notRoot (affix.head nonempty)
        (holds'.allUnder_affix.mono (List.prefix_append_head path nonempty))).elim
    | node pointerBlock' =>
      cases holds' with
      | node linked' child' vacant' _ _ =>
      congr 1
      ext1
      funext index
      -- a child on one side holds entries, so the other side has a child there too
      have absentOf : ∀ {side : PointerBlock δ} {sideStore : δ → Option (Trie κ ν δ)} (pointer : Pointer δ),
          side.get index = some pointer →
          (∀ pointer trie, side.get index = some pointer → sideStore pointer.hash = some trie →
            Holds ctx sideStore (path ++ [index]) trie (underPath ctx (path ++ [index]) entries)) →
          (∀ pointer, side.get index = some pointer → ∃ trie, sideStore pointer.hash = some trie) →
          ∃ key, path ++ [index] <+: ctx.keyBytes key ∧ entries key ≠ none := by
        intro side sideStore pointer found holdsChild stored
        obtain ⟨trie, storedChild⟩ := stored pointer found
        obtain ⟨key, entry⟩ := (holdsChild pointer trie found storedChild).nonempty (by simp)
        have onIndex : path ++ [index] <+: ctx.keyBytes key := by
          by_contra offIndex
          exact entry (underPath_of_offPath offIndex)
        exact ⟨key, onIndex, by rwa [underPath_of_onPath onIndex] at entry⟩
      cases found : pointerBlock.get index with
      | none =>
        cases found' : pointerBlock'.get index with
        | none => rfl
        | some pointer' =>
          obtain ⟨key, onIndex, present⟩ := absentOf pointer' found'
            (fun pointer trie found stored => child' index pointer trie found stored)
            (fun pointer found => (linked' index pointer found).imp fun _ facts => facts.1)
          exact absurd (vacant index key found onIndex) present
      | some pointer =>
        cases found' : pointerBlock'.get index with
        | none =>
          obtain ⟨key, onIndex, present⟩ := absentOf pointer found
            (fun pointer trie found stored => child index pointer trie found stored)
            (fun pointer found => (linked index pointer found).imp fun _ facts => facts.1)
          exact absurd (vacant' index key found' onIndex) present
        | some pointer' =>
          -- both children hold the entries below the index, so they are one trie
          obtain ⟨trie, stored, tagged⟩ := linked index pointer found
          obtain ⟨trie', stored', tagged'⟩ := linked' index pointer' found'
          have same := ih index pointer trie found stored (child' index pointer' trie' found' stored') (.inl (by simp))
          rw [tagged, tagged', same]
  | @extension path affix pointerBlock entries notRoot nonempty linked target ih =>
    have holds := Holds.extension notRoot nonempty linked target
    cases trie' with
    | leaf key value =>
      rw [holds'.leaf_entries] at holds
      exact holds.ne_single_of_extension.elim
    | node pointerBlock' =>
      exact (holds'.not_allUnder_next notRoot (affix.head nonempty)
        (holds.allUnder_affix.mono (List.prefix_append_head path nonempty))).elim
    | extension affix' pointer' =>
      have sameAffix : affix = affix' := by
        rcases le_total affix.length affix'.length with shorter | longer
        · exact holds.affix_eq holds' shorter
        · exact (holds'.affix_eq holds longer).symm
      subst sameAffix
      obtain ⟨target', rfl, -, -, -, holdsTarget'⟩ := holds'.extension_inv
      have same := ih holdsTarget' (.inl (by simp [notRoot]))
      rw [same]

theorem RootHolds.root_unique {root root' : δ} {entries : κ → Option ν}
    (rootHolds : RootHolds ctx store root entries) (rootHolds' : RootHolds ctx store' root' entries) :
    root = root' := by
  obtain ⟨pointerBlock, rfl, -, holds⟩ := rootHolds
  obtain ⟨pointerBlock', rfl, -, holds'⟩ := rootHolds'
  rw [holds.unique holds' (.inr ⟨⟨_, rfl⟩, _, rfl⟩)]

end Unique

section History

/-- Writes to distinct keys commute, so their order does not change the map. By
induction on the permutation. -/
theorem Operation.applyAll_writeAll_perm {writes writes' : List (κ × ν)} (distinct : (writes.map Prod.fst).Nodup)
    (perm : writes.Perm writes') (entries : κ → Option ν) :
    applyAll (writeAll writes) entries = applyAll (writeAll writes') entries := by
  induction perm generalizing entries with
  | nil => rfl
  | cons write _ ih => exact ih (List.nodup_cons.mp distinct).2 _
  | swap first second rest =>
    have apart : second.1 ≠ first.1 := by
      simp only [List.map_cons, List.nodup_cons, List.mem_cons, not_or] at distinct
      exact distinct.1.1
    simp only [writeAll, List.map_cons, applyAll, apply]
    rw [Function.update_comm apart]
  | trans first second ih ih' =>
    exact (ih distinct entries).trans (ih' ((first.map Prod.fst).nodup_iff.mp distinct) entries)

omit [DecidableEq κ] in
@[simp] theorem Operation.writeAll_cons (write : κ × ν) (writes : List (κ × ν)) :
    writeAll (write :: writes) = .write write.1 write.2 :: writeAll writes := rfl

theorem Operation.applyAll_writeAll_apply {writes : List (κ × ν)} (distinct : (writes.map Prod.fst).Nodup)
    (entries : κ → Option ν) (key : κ) :
    applyAll (writeAll writes) entries key = (writes.lookup key).or (entries key) := by
  induction writes generalizing entries with
  | nil => rfl
  | cons write writes ih =>
    obtain ⟨written, value⟩ := write
    rw [List.map_cons, List.nodup_cons] at distinct
    rw [writeAll_cons, applyAll, ih distinct.2]
    by_cases same : key = written
    · subst same
      simp [apply, AssocList.lookup_eq_none_of_not_mem distinct.1]
    · simp [apply, same, AssocList.lookup_cons_ne _ _ same]

variable [DecidableEq ν] [DecidableEq δ]

variable {store : δ → Option (Trie κ ν δ)} (sound : ctx.Sound)
include sound

theorem RootHolds.runOperations_root_eq {root root' : δ} {store' : δ → Option (Trie κ ν δ)}
    {entries entries' : κ → Option ν} (rootHolds : RootHolds ctx store root entries)
    (rootHolds' : RootHolds ctx store' root' entries') (operations operations' : List (Operation κ ν))
    (sameMap : Operation.applyAll operations entries = Operation.applyAll operations' entries') :
    ∃ final final' last, TrieStore.runOperations ctx operations (store, root) = some (final, last) ∧
      TrieStore.runOperations ctx operations' (store', root') = some (final', last) := by
  obtain ⟨final, last, ran, holdsLast⟩ := rootHolds.runOperations sound operations
  obtain ⟨final', last', ran', holdsLast'⟩ := rootHolds'.runOperations sound operations'
  rw [sameMap] at holdsLast
  obtain rfl := holdsLast.root_unique holdsLast'
  exact ⟨final, final', last, ran, ran'⟩

theorem RootHolds.delete_write {root : δ} {entries : κ → Option ν} (rootHolds : RootHolds ctx store root entries)
    {key : κ} (absent : entries key = none) (value : ν) :
    ∃ store' root' store'', TrieStore.write ctx store root key value = some (.written root', store') ∧
      TrieStore.delete ctx store' root' key = some (.deleted root, store'') := by
  obtain ⟨result, store', root', written, outcome, rootHolds', -⟩ := rootHolds.write sound key value
  rcases outcome with rfl | ⟨rfl, rfl, rfl⟩
  · obtain ⟨result', store'', deleted, outcome'⟩ := rootHolds'.delete sound key
    rcases outcome' with ⟨present, -, -⟩ | ⟨-, root'', rfl, rootHolds'', -⟩
    · simp at present
    · have restored : Function.update (Function.update entries key (some value)) key none = entries := by
        rw [Function.update_idem, Function.update_eq_self_iff.mpr absent.symm]
      rw [restored] at rootHolds''
      obtain rfl := rootHolds''.root_unique rootHolds
      exact ⟨_, _, _, written, deleted⟩
  · -- an answer of AlreadyExists would leave one root holding two maps that differ at the key
    have reads := (rootHolds.read sound key).symm.trans (rootHolds'.read sound key)
    simp [absent] at reads

theorem trie_shape_canonical :
    (∀ operations operations' : List (Operation κ ν),
      Operation.applyAll operations (fun _ => none) = Operation.applyAll operations' (fun _ => none) →
      ∃ store store' root, runOperations ctx operations (emptyStore ctx, emptyRoot ctx) = some (store, root) ∧
        runOperations ctx operations' (emptyStore ctx, emptyRoot ctx) = some (store', root)) ∧
    (∀ (store : δ → Option (Trie κ ν δ)) root, WellFormed ctx store root → ∀ key value,
      read ctx store root key = some .notFound →
      ∃ store' root' store'', write ctx store root key value = some (.written root', store') ∧
        delete ctx store' root' key = some (.deleted root, store'')) ∧
    (∀ writes writes' : List (κ × ν), (writes.map Prod.fst).Nodup → writes.Perm writes' →
      ∃ store store' root,
        runOperations ctx (Operation.writeAll writes) (emptyStore ctx, emptyRoot ctx) = some (store, root) ∧
        runOperations ctx (Operation.writeAll writes') (emptyStore ctx, emptyRoot ctx) = some (store', root)) := by
  refine ⟨fun operations operations' sameMap => ?_, ?_, fun writes writes' distinct perm => ?_⟩
  · exact (rootHolds_empty ctx).runOperations_root_eq sound (rootHolds_empty ctx) operations operations' sameMap
  · rintro store root ⟨entries, rootHolds⟩ key value notFound
    have absent : entries key = none := by
      rw [rootHolds.read sound key] at notFound
      cases entry : entries key with
      | none => rfl
      | some found => simp [entry] at notFound
    exact RootHolds.delete_write sound rootHolds absent value
  · exact (rootHolds_empty ctx).runOperations_root_eq sound (rootHolds_empty ctx) _ _
      (Operation.applyAll_writeAll_perm distinct perm _)

end History

/-- The shared-prefix writes in either order end on one root. -/
theorem trie_shape_canonical_on_shared_prefix :
    tripleContext.Sound ∧
      ∃ store store' root, runOperations tripleContext (Operation.writeAll [((1, 2, 3), 5), ((1, 2, 4), 6)])
          (emptyStore tripleContext, emptyRoot tripleContext) = some (store, root) ∧
        runOperations tripleContext (Operation.writeAll [((1, 2, 4), 6), ((1, 2, 3), 5)])
          (emptyStore tripleContext, emptyRoot tripleContext) = some (store', root) :=
  ⟨tripleContext_sound, (trie_shape_canonical tripleContext_sound).2.2 _ _ (by decide) (.swap _ _ _)⟩

end TrieStore
