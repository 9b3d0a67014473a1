import CasperNode.TrieStore.Scan

/-!
Rebuilding the trie along a spine. Replacing what the position at the bottom of
a `Spine` holds by a new trie, and hashing every parent above it again (what
`rehash` does, and what the propagation loop of `delete` does), yields a root
whose trie holds the old entries with those below the position replaced.
-/

namespace TrieStore

open ContentStore

variable {κ ν δ : Type}

theorem rehash_head {ctx : TrieContext κ ν δ} {tip : Trie κ ν δ} {parents : Parents κ ν δ}
    {elements : List (δ × Trie κ ν δ)} (rehashed : rehash ctx tip parents = some elements) :
    (ctx.trieHash tip, tip) ∈ elements := by
  cases parents with
  | nil =>
    simp only [rehash, Option.some.injEq] at rehashed
    simp [← rehashed]
  | cons parent parents =>
    obtain ⟨index, parent⟩ := parent
    cases parent with
    | leaf => simp [rehash] at rehashed
    | node =>
      simp only [rehash, Option.map_eq_map, Option.map_eq_some_iff] at rehashed
      obtain ⟨rest, -, rfl⟩ := rehashed
      simp
    | extension =>
      simp only [rehash, Option.map_eq_map, Option.map_eq_some_iff] at rehashed
      obtain ⟨rest, -, rfl⟩ := rehashed
      simp

theorem rehash_addressed {ctx : TrieContext κ ν δ} {tip : Trie κ ν δ} {parents : Parents κ ν δ}
    {elements : List (δ × Trie κ ν δ)} (rehashed : rehash ctx tip parents = some elements) :
    Addressed ctx.trieHash elements := by
  induction parents generalizing tip elements with
  | nil =>
    simp only [rehash, Option.some.injEq] at rehashed
    subst rehashed
    simp [Addressed]
  | cons parent parents ih =>
    obtain ⟨index, parent⟩ := parent
    cases parent with
    | leaf => simp [rehash] at rehashed
    | node =>
      simp only [rehash, Option.map_eq_map, Option.map_eq_some_iff] at rehashed
      obtain ⟨rest, rehashed, rfl⟩ := rehashed
      exact (ih rehashed).cons _
    | extension =>
      simp only [rehash, Option.map_eq_map, Option.map_eq_some_iff] at rehashed
      obtain ⟨rest, rehashed, rfl⟩ := rehashed
      exact (ih rehashed).cons _

section Spine

variable {ctx : TrieContext κ ν δ}

theorem underPath_plug_sibling {path : List UInt8} {index other : UInt8} (distinct : other ≠ index)
    (outer inner : κ → Option ν) :
    underPath ctx (path ++ [other]) (plug ctx (path ++ [index]) outer inner) =
      underPath ctx (path ++ [other]) outer := by
  funext key
  by_cases onOther : path ++ [other] <+: ctx.keyBytes key
  · have offIndex : ¬ path ++ [index] <+: ctx.keyBytes key := fun onIndex =>
      distinct (List.eq_of_append_singleton_prefixes onOther onIndex)
    simp [onOther, offIndex]
  · simp [onOther]

theorem underPath_plug_of_within {path affix : List UInt8} {outer inner : κ → Option ν}
    (within : ∀ key, path <+: ctx.keyBytes key → outer key ≠ none → path ++ affix <+: ctx.keyBytes key)
    (under : AllUnder ctx (path ++ affix) inner) :
    underPath ctx path (plug ctx (path ++ affix) outer inner) = inner := by
  funext key
  by_cases onAffix : path ++ affix <+: ctx.keyBytes key
  · simp [List.IsPrefix.of_append_left onAffix, onAffix]
  · by_cases onPath : path <+: ctx.keyBytes key
    · rw [underPath_of_onPath onPath, plug_of_offPath onAffix]
      have outerAbsent : outer key = none := by
        by_contra present
        exact onAffix (within key onPath present)
      have innerAbsent : inner key = none := by
        by_contra present
        exact onAffix (under key present)
      rw [outerAbsent, innerAbsent]
    · rw [underPath_of_offPath onPath]
      by_contra present
      exact onPath (List.IsPrefix.of_append_left (under key (Ne.symm present)))

variable [DecidableEq κ] {store : δ → Option (Trie κ ν δ)}

/-- A spine node whose child at `index` now points to `tip`: what `rehash` and the
propagation of `delete` put in the parent's place. -/
theorem SpineNode.holds {path : List UInt8} {entries : κ → Option ν} {index : UInt8}
    {pointerBlock : PointerBlock δ} (node : SpineNode ctx store path index pointerBlock entries)
    {tip : Trie κ ν δ} {inner : κ → Option ν} (stored : store (ctx.trieHash tip) = some tip)
    (holds : Holds ctx store (path ++ [index]) tip inner) (under : AllUnder ctx (path ++ [index]) inner) :
    Holds ctx store path (.node (pointerBlock.set index (some (tip.pointerTo (ctx.trieHash tip)))))
      (underPath ctx path (plug ctx (path ++ [index]) entries inner)) := by
  refine .node (fun other pointer found => ?_) (fun other pointer trie found stored' => ?_)
    (fun other key absent onOther => ?_) (fun key present => ?_) (fun notRoot => ?_)
  · by_cases same : other = index
    · subst same
      simp only [PointerBlock.get_set, ↓reduceIte, Option.some.injEq] at found
      subst found
      exact ⟨tip, by simpa using stored, rfl⟩
    · rw [PointerBlock.get_set, if_neg same] at found
      exact node.linked other pointer same found
  · rw [underPath_underPath (List.prefix_append path [other])]
    by_cases same : other = index
    · subst same
      simp only [PointerBlock.get_set, ↓reduceIte, Option.some.injEq] at found
      subst found
      rw [Trie.hash_pointerTo, stored] at stored'
      obtain rfl := Option.some.inj stored'
      rwa [underPath_plug_self under]
    · rw [PointerBlock.get_set, if_neg same] at found
      rw [underPath_plug_sibling same]
      exact node.sibling other pointer trie same found stored'
  · have same : other ≠ index := by
      rintro rfl
      simp at absent
    rw [PointerBlock.get_set, if_neg same] at absent
    have offIndex : ¬ path ++ [index] <+: ctx.keyBytes key := fun onIndex =>
      same (List.eq_of_append_singleton_prefixes onOther onIndex)
    rw [underPath_of_onPath (List.IsPrefix.of_append_left onOther), plug_of_offPath offIndex]
    exact node.vacant other key absent onOther
  · have onPath : path <+: ctx.keyBytes key := by
      by_contra offPath
      exact present (underPath_of_offPath offPath)
    refine ⟨onPath, ?_⟩
    rw [underPath_of_onPath onPath] at present
    by_cases onIndex : path ++ [index] <+: ctx.keyBytes key
    · have := onIndex.length_le
      simp only [List.length_append, List.length_singleton] at this
      omega
    · rw [plug_of_offPath onIndex] at present
      exact node.below key onPath present
  · exact (node.branching notRoot).trans (PointerBlock.childCount_le_set_some _ _ _)

/-- Rehashing up a spine: whatever the new `tip` holds below the position replaces what
the root held there. -/
theorem Spine.rehash {parents : Parents κ ν δ} {hole : List UInt8} {entries : κ → Option ν}
    (spine : Spine ctx store parents hole entries) {tip : Trie κ ν δ} {inner : κ → Option ν}
    (fits : Fits parents tip) (holds : Holds ctx store hole tip inner) (under : AllUnder ctx hole inner)
    {elements : List (δ × Trie κ ν δ)} (rehashed : TrieStore.rehash ctx tip parents = some elements)
    (contains : Contains store elements) :
    ∃ root rootTrie, elements.getLast? = some (root, rootTrie) ∧
      RootHolds ctx store root (plug ctx hole entries inner) := by
  have stored : store (ctx.trieHash tip) = some tip := contains _ (rehash_head rehashed)
  induction spine generalizing tip inner elements with
  | root =>
    obtain ⟨pointerBlock, rfl⟩ := fits
    simp only [TrieStore.rehash, Option.some.injEq] at rehashed
    subst rehashed
    have whole : plug ctx [] entries inner = inner := by
      funext key
      simp
    exact ⟨_, _, rfl, pointerBlock, rfl, stored, whole ▸ holds⟩
  | @node parents path entries index pointerBlock above node ih =>
    obtain ⟨rest, rehashedRest, rfl⟩ := rehash_node_eq_some.mp rehashed
    have contains' : Contains store rest := contains.mono (List.subset_cons_self _ _)
    obtain ⟨root, rootTrie, last, rootHolds⟩ := ih (fits_node _ _) (node.holds stored holds under)
      (allUnder_underPath _ _) rehashedRest contains' (contains' _ (rehash_head rehashedRest))
    refine ⟨root, rootTrie, ?_, ?_⟩
    · rw [List.getLast?_cons, last]
      rfl
    · rwa [plug_underPath_plug (List.prefix_append path [index])] at rootHolds
  | @extension parents path affix entries index parentIndex hash parentBlock above nonempty within ih =>
    obtain ⟨tipBlock, rfl⟩ := fits
    obtain ⟨rest, rehashedRest, rfl⟩ := rehash_extension_eq_some.mp rehashed
    rw [Pointer.nodePointer_update] at rehashedRest
    have contains' : Contains store rest := contains.mono (List.subset_cons_self _ _)
    -- the extension keeps its affix and now points to the new node
    have notRoot : path ≠ [] := above.hole_ne_nil (List.cons_ne_nil _ _)
    have holdsParent : Holds ctx store path (.extension affix (.nodePointer (ctx.trieHash (.node tipBlock))))
        (underPath ctx path (plug ctx (path ++ affix) entries inner)) := by
      rw [underPath_plug_of_within within under]
      exact .extension notRoot nonempty stored holds
    obtain ⟨root, rootTrie, last, rootHolds⟩ := ih trivial holdsParent (allUnder_underPath _ _)
      rehashedRest contains' (contains' _ (rehash_head rehashedRest))
    refine ⟨root, rootTrie, ?_, ?_⟩
    · rw [List.getLast?_cons, last]
      rfl
    · rwa [plug_underPath_plug (List.prefix_append path affix)] at rootHolds

theorem Spine.rehash_isSome {parents : Parents κ ν δ} {hole : List UInt8} {entries : κ → Option ν}
    (spine : Spine ctx store parents hole entries) (tip : Trie κ ν δ) :
    ∃ elements, TrieStore.rehash ctx tip parents = some elements := by
  induction spine generalizing tip with
  | root => exact ⟨_, rfl⟩
  | node _ _ ih =>
    obtain ⟨rest, rehashed⟩ := ih (.node (PointerBlock.set _ _ (some (tip.pointerTo (ctx.trieHash tip)))))
    exact ⟨_, rehash_node_eq_some.mpr ⟨rest, rehashed, rfl⟩⟩
  | extension _ _ _ ih =>
    obtain ⟨rest, rehashed⟩ := ih (.extension _ (.nodePointer (ctx.trieHash tip)))
    exact ⟨_, rehash_extension_eq_some.mpr ⟨rest, rehashed, rfl⟩⟩

end Spine

end TrieStore
