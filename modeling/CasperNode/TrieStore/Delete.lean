import CasperNode.TrieStore.Write

/-!
`delete` on a well-formed root. The first step of the loop removes the leaf from its
parent node, and collapses that node when one child is left (the child leaf moves up,
or the node becomes an extension to the child); every later step reseats what was
built into the next parent, merging two extensions that meet. The elements kept on
the loop's stack rebuild a root holding the old entries without the deleted one.
-/

namespace TrieStore

open ContentStore

variable {κ ν δ : Type} {ctx : TrieContext κ ν δ}

theorem Trie.pointerTo_of_ne_leaf {trie : Trie κ ν δ} (notLeaf : ∀ key value, trie ≠ .leaf key value)
    (hash : δ) : trie.pointerTo hash = .nodePointer hash := by
  cases trie with
  | leaf key value => exact absurd rfl (notLeaf key value)
  | node => rfl
  | extension => rfl

section Loop

variable (ctx) (store : δ → Option (Trie κ ν δ))

theorem deleteLoop_node {trieKey : δ} {trie : Trie κ ν δ} (notLeaf : ∀ key value, trie ≠ .leaf key value)
    (rest : List (δ × Trie κ ν δ)) (index : UInt8) (pointerBlock : PointerBlock δ) (parents : Parents κ ν δ) :
    deleteLoop ctx store ((trieKey, trie) :: rest) ((index, .node pointerBlock) :: parents) =
      deleteLoop ctx store ((ctx.trieHash (.node (pointerBlock.set index (some (.nodePointer trieKey)))),
        .node (pointerBlock.set index (some (.nodePointer trieKey)))) :: (trieKey, trie) :: rest) parents := by
  cases trie with
  | leaf key value => exact absurd rfl (notLeaf key value)
  | node => rfl
  | extension => rfl

theorem deleteLoop_extension_node (trieKey : δ) (pointerBlock : PointerBlock δ) (rest : List (δ × Trie κ ν δ))
    (index : UInt8) (affix : List UInt8) (pointer : Pointer δ) (parents : Parents κ ν δ) :
    deleteLoop ctx store ((trieKey, .node pointerBlock) :: rest) ((index, .extension affix pointer) :: parents) =
      deleteLoop ctx store ((ctx.trieHash (.extension affix (.nodePointer trieKey)),
        .extension affix (.nodePointer trieKey)) :: (trieKey, .node pointerBlock) :: rest) parents := rfl

theorem deleteLoop_extension_extension (trieKey : δ) (childAffix : List UInt8) (childPointer : Pointer δ)
    (rest : List (δ × Trie κ ν δ)) (index : UInt8) (affix : List UInt8) (pointer : Pointer δ)
    (parents : Parents κ ν δ) :
    deleteLoop ctx store ((trieKey, .extension childAffix childPointer) :: rest)
        ((index, .extension affix pointer) :: parents) =
      deleteLoop ctx store ((ctx.trieHash (.extension (affix ++ childAffix) childPointer),
        .extension (affix ++ childAffix) childPointer) :: rest) parents := rfl

end Loop

section Propagate

variable [DecidableEq κ] {store : δ → Option (Trie κ ν δ)}

theorem rebuilds_reverse_of_root {rest : List (δ × Trie κ ν δ)} (addressed : Addressed ctx.trieHash rest)
    {pointerBlock : PointerBlock δ} {entries : κ → Option ν}
    (holds : ∀ store', Keeps ctx.trieHash store store' → Contains store' rest →
      Holds ctx store' [] (.node pointerBlock) entries) :
    Rebuilds ctx store ((ctx.trieHash (.node pointerBlock), .node pointerBlock) :: rest).reverse entries := by
  refine ⟨fun element member => ?_, ctx.trieHash (.node pointerBlock), .node pointerBlock, by simp,
    fun store' keeps contains => ?_⟩
  · rcases List.mem_cons.mp (List.mem_reverse.mp member) with rfl | later
    · rfl
    · exact addressed element later
  · have contains' : Contains store' ((ctx.trieHash (.node pointerBlock), .node pointerBlock) :: rest) :=
      fun element member => contains element (List.mem_reverse.mpr member)
    exact ⟨pointerBlock, rfl, contains' _ (List.mem_cons_self ..),
      holds store' keeps (contains'.mono (List.subset_cons_self _ _))⟩

/-- The propagation loop of `delete`, by induction on the spine above the position of
the trie on top of the stack: a node reseats it, an extension points to it or, when it
is an extension too, absorbs it. -/
theorem Spine.deleteLoop {parents : Parents κ ν δ} {hole : List UInt8} {entries : κ → Option ν}
    (spine : Spine ctx store parents hole entries) {trie : Trie κ ν δ} {inner : κ → Option ν}
    (notLeaf : ∀ key value, trie ≠ .leaf key value) (fits : parents = [] → ∃ pointerBlock, trie = .node pointerBlock)
    (under : AllUnder ctx hole inner) {rest : List (δ × Trie κ ν δ)} (addressed : Addressed ctx.trieHash rest)
    (holds : ∀ store', Keeps ctx.trieHash store store' → Contains store' rest → Holds ctx store' hole trie inner) :
    ∃ elements, TrieStore.deleteLoop ctx store ((ctx.trieHash trie, trie) :: rest) parents = some elements ∧
      Rebuilds ctx store elements.reverse (plug ctx hole entries inner) := by
  induction spine generalizing trie inner rest with
  | root =>
    obtain ⟨pointerBlock, rfl⟩ := fits rfl
    have whole : plug ctx [] entries inner = inner := by
      funext key
      simp
    exact ⟨_, rfl, whole ▸ rebuilds_reverse_of_root addressed holds⟩
  | @node parents path entries index pointerBlock above node ih =>
    rw [deleteLoop_node ctx store notLeaf]
    have addressed' : Addressed ctx.trieHash ((ctx.trieHash trie, trie) :: rest) := addressed.cons trie
    -- the node now points to the trie built below it
    have holds' : ∀ store', Keeps ctx.trieHash store store' → Contains store' ((ctx.trieHash trie, trie) :: rest) →
        Holds ctx store' path (.node (pointerBlock.set index (some (.nodePointer (ctx.trieHash trie)))))
          (underPath ctx path (plug ctx (path ++ [index]) entries inner)) := by
      intro store' keeps contains
      have built := (node.keep keeps).holds (contains _ (List.mem_cons_self ..))
        (holds store' keeps (contains.mono (List.subset_cons_self _ _))) under
      rwa [Trie.pointerTo_of_ne_leaf notLeaf] at built
    obtain ⟨elements, looped, rebuilt⟩ := ih (by simp) (fun _ => ⟨_, rfl⟩) (allUnder_underPath _ _) addressed'
      holds'
    refine ⟨elements, looped, ?_⟩
    rwa [plug_underPath_plug (List.prefix_append path [index])] at rebuilt
  | @extension parents path affix entries index parentIndex hash parentBlock above nonempty within ih =>
    have notRoot : path ≠ [] := above.hole_ne_nil (List.cons_ne_nil _ _)
    have restricted : underPath ctx path (plug ctx (path ++ affix) entries inner) = inner :=
      underPath_plug_of_within within under
    cases trie with
    | leaf key value => exact absurd rfl (notLeaf key value)
    | node pointerBlock =>
      -- the extension now points to the node built below it
      rw [deleteLoop_extension_node]
      have addressed' : Addressed ctx.trieHash ((ctx.trieHash (.node pointerBlock), .node pointerBlock) :: rest) :=
        addressed.cons _
      have holds' : ∀ store', Keeps ctx.trieHash store store' →
          Contains store' ((ctx.trieHash (.node pointerBlock), .node pointerBlock) :: rest) →
          Holds ctx store' path (.extension affix (.nodePointer (ctx.trieHash (.node pointerBlock))))
            (underPath ctx path (plug ctx (path ++ affix) entries inner)) := by
        intro store' keeps contains
        rw [restricted]
        exact .extension notRoot nonempty (contains _ (List.mem_cons_self ..))
          (holds store' keeps (contains.mono (List.subset_cons_self _ _)))
      obtain ⟨elements, looped, rebuilt⟩ := ih (by simp) (by simp) (allUnder_underPath _ _) addressed' holds'
      refine ⟨elements, looped, ?_⟩
      rwa [plug_underPath_plug (List.prefix_append path affix)] at rebuilt
    | extension childAffix childPointer =>
      -- the extension absorbs the extension built below it
      rw [deleteLoop_extension_extension]
      have holds' : ∀ store', Keeps ctx.trieHash store store' → Contains store' rest →
          Holds ctx store' path (.extension (affix ++ childAffix) childPointer)
            (underPath ctx path (plug ctx (path ++ affix) entries inner)) := by
        intro store' keeps contains
        obtain ⟨target, rfl, -, -, stored, holdsTarget⟩ := (holds store' keeps contains).extension_inv
        rw [restricted]
        exact .extension notRoot (by simp [nonempty]) stored (by simpa using holdsTarget)
      obtain ⟨elements, looped, rebuilt⟩ := ih (by simp) (by simp) (allUnder_underPath _ _) addressed holds'
      refine ⟨elements, looped, ?_⟩
      rwa [plug_underPath_plug (List.prefix_append path affix)] at rebuilt

end Propagate

section Entries

theorem update_single_none [DecidableEq κ] (key : κ) (value : ν) :
    Function.update (single key value) key none = fun _ => none := by
  funext other
  by_cases same : other = key
  · subst same
    simp
  · simp [single, same]

/-- Entries that agree with `outer` away from `path` are `outer` with those below `path`
plugged in. -/
theorem plug_underPath_eq {path : List UInt8} {outer entries : κ → Option ν}
    (outside : ∀ key, ¬ path <+: ctx.keyBytes key → outer key = entries key) :
    plug ctx path outer (underPath ctx path entries) = entries := by
  funext key
  by_cases onPath : path <+: ctx.keyBytes key
  · simp [onPath]
  · simp [onPath, outside key onPath]

theorem plug_underPath_update [DecidableEq κ] {path : List UInt8} {entries : κ → Option ν} {key : κ}
    (onKey : path <+: ctx.keyBytes key) :
    plug ctx path entries (underPath ctx path (Function.update entries key none)) =
      Function.update entries key none :=
  plug_underPath_eq fun other offPath =>
    (Function.update_of_ne (fun same => offPath (by rw [same]; exact onKey)) _ _).symm

@[simp] theorem underPath_nil (entries : κ → Option ν) : underPath ctx [] entries = entries := by
  funext key
  simp

theorem underPath_eq_of_within {short long : List UInt8} {entries : κ → Option ν} (longer : short <+: long)
    (within : ∀ key, short <+: ctx.keyBytes key → entries key ≠ none → long <+: ctx.keyBytes key) :
    underPath ctx short entries = underPath ctx long entries := by
  funext key
  by_cases onLong : long <+: ctx.keyBytes key
  · simp [onLong, longer.trans onLong]
  · rw [underPath_of_offPath onLong]
    by_cases onShort : short <+: ctx.keyBytes key
    · rw [underPath_of_onPath onShort]
      by_contra present
      exact onLong (within key onShort present)
    · rw [underPath_of_offPath onShort]

end Entries

section Vacate

variable [DecidableEq κ] {store : δ → Option (Trie κ ν δ)}

theorem holds_new (store : δ → Option (Trie κ ν δ)) :
    Holds ctx store [] (.node .new) (fun _ => none : κ → Option ν) :=
  .node (fun _ _ found => by simp at found) (fun _ _ _ found => by simp at found) (fun _ _ _ _ => rfl)
    (fun _ present => absurd rfl present) (fun notRoot => absurd rfl notRoot)

theorem SpineNode.holds_vacate {path : List UInt8} {index : UInt8} {pointerBlock : PointerBlock δ}
    {entries : κ → Option ν} (node : SpineNode ctx store path index pointerBlock entries)
    (branching : path ≠ [] → 2 ≤ (pointerBlock.set index none).childCount) :
    Holds ctx store path (.node (pointerBlock.set index none))
      (underPath ctx path (plug ctx (path ++ [index]) entries fun _ => none)) := by
  refine .node (fun other pointer found => ?_) (fun other pointer trie found stored => ?_)
    (fun other key absent onOther => ?_) (fun key present => ?_) branching
  · have same : other ≠ index := by
      rintro rfl
      simp at found
    rw [PointerBlock.get_set, if_neg same] at found
    exact node.linked other pointer same found
  · have same : other ≠ index := by
      rintro rfl
      simp at found
    rw [PointerBlock.get_set, if_neg same] at found
    rw [underPath_underPath (List.prefix_append path [other]), underPath_plug_sibling same]
    exact node.sibling other pointer trie same found stored
  · rw [underPath_of_onPath (List.IsPrefix.of_append_left onOther)]
    by_cases same : other = index
    · subst same
      simp [onOther]
    · rw [PointerBlock.get_set, if_neg same] at absent
      have offIndex : ¬ path ++ [index] <+: ctx.keyBytes key := fun onIndex =>
        same (List.eq_of_append_singleton_prefixes onOther onIndex)
      rw [plug_of_offPath offIndex]
      exact node.vacant other key absent onOther
  · have onPath : path <+: ctx.keyBytes key := by
      by_contra offPath
      exact present (underPath_of_offPath offPath)
    rw [underPath_of_onPath onPath] at present
    by_cases onIndex : path ++ [index] <+: ctx.keyBytes key
    · simp [onIndex] at present
    · rw [plug_of_offPath onIndex] at present
      exact ⟨onPath, node.below key onPath present⟩

theorem SpineNode.child_of_entry {path : List UInt8} {index : UInt8} {pointerBlock : PointerBlock δ}
    {entries : κ → Option ν} (node : SpineNode ctx store path index pointerBlock entries) {key : κ}
    (onPath : path <+: ctx.keyBytes key) (present : entries key ≠ none) :
    ∃ child, path ++ [child] <+: ctx.keyBytes key ∧ (pointerBlock.get child).isSome := by
  have longer := node.below key onPath present
  have next := List.prefix_append_getElem onPath longer
  refine ⟨_, next, ?_⟩
  cases found : pointerBlock.get (ctx.keyBytes key)[path.length] with
  | none => exact absurd (node.vacant _ key found next) present
  | some _ => rfl

section Leaf

variable {path : List UInt8} {index : UInt8} {pointerBlock : PointerBlock δ} {entries : κ → Option ν}
  {key : κ} {leafValue : ν} (node : SpineNode ctx store path index pointerBlock entries)
  (onKey : path ++ [index] <+: ctx.keyBytes key)
  (leafEntries : underPath ctx (path ++ [index]) entries = single key leafValue)
include node onKey leafEntries

theorem SpineNode.underPath_update_of_sibling {sibling : UInt8} (distinct : sibling ≠ index)
    (only : ∀ other, (pointerBlock.get other).isSome → other = index ∨ other = sibling) :
    underPath ctx path (Function.update entries key none) = underPath ctx (path ++ [sibling]) entries := by
  funext other
  by_cases onSibling : path ++ [sibling] <+: ctx.keyBytes other
  · have distinctKey : other ≠ key := by
      rintro rfl
      exact distinct (List.eq_of_append_singleton_prefixes onSibling onKey)
    simp [onSibling, List.IsPrefix.of_append_left onSibling, distinctKey]
  · rw [underPath_of_offPath onSibling]
    by_cases onPath : path <+: ctx.keyBytes other
    · rw [underPath_of_onPath onPath]
      by_cases same : other = key
      · subst same
        simp
      · rw [Function.update_of_ne same]
        by_contra present
        obtain ⟨child, onChild, hasChild⟩ := node.child_of_entry onPath present
        rcases only child hasChild with rfl | rfl
        · have entry := congrFun leafEntries other
          rw [underPath_of_onPath onChild] at entry
          simp [entry, single, same] at present
        · exact onSibling onChild
    · rw [underPath_of_offPath onPath]

theorem SpineNode.underPath_update_of_alone (only : ∀ other, (pointerBlock.get other).isSome → other = index) :
    underPath ctx path (Function.update entries key none) = fun _ => none := by
  funext other
  by_cases onPath : path <+: ctx.keyBytes other
  · rw [underPath_of_onPath onPath]
    by_cases same : other = key
    · subst same
      simp
    · rw [Function.update_of_ne same]
      by_contra present
      obtain ⟨child, onChild, hasChild⟩ := node.child_of_entry onPath present
      obtain rfl := only child hasChild
      have entry := congrFun leafEntries other
      rw [underPath_of_onPath onChild] at entry
      simp [entry, single, same] at present
  · rw [underPath_of_offPath onPath]

omit node in
theorem update_eq_plug_empty :
    Function.update entries key none = plug ctx (path ++ [index]) entries fun _ => none := by
  rw [← plug_update onKey, leafEntries, update_single_none]

theorem SpineNode.delete_many {rest : Parents κ ν δ} (above : Spine ctx store rest path entries)
    (many : 2 < pointerBlock.childCount) :
    ∃ elements, TrieStore.deleteLoop ctx store [] ((index, .node pointerBlock) :: rest) = some elements ∧
      Rebuilds ctx store elements.reverse (Function.update entries key none) := by
  have present : (pointerBlock.get index).isSome := node.present
  have holds : ∀ store', Keeps ctx.trieHash store store' → Contains store' [] →
      Holds ctx store' path (.node (pointerBlock.set index none))
        (underPath ctx path (plug ctx (path ++ [index]) entries fun _ => none)) := fun store' keeps _ =>
    (node.keep keeps).holds_vacate fun _ => by
      have := PointerBlock.childCount_set_none present
      omega
  obtain ⟨elements, looped, rebuilt⟩ :=
    above.deleteLoop (by simp) (fun _ => ⟨_, rfl⟩) (allUnder_underPath _ _) (addressed_nil _) holds
  refine ⟨elements, by rw [deleteLoop_nil_node_of_many many]; exact looped, ?_⟩
  rwa [plug_underPath_plug (List.prefix_append path [index]),
    ← update_eq_plug_empty onKey leafEntries] at rebuilt

omit onKey leafEntries in
theorem SpineNode.sibling_of_find (few : ¬ 2 < pointerBlock.childCount) {sibling : UInt8}
    {pointer : Pointer δ}
    (found : pointerBlock.asIndexedPointers.find? (fun entry => index != entry.1) = some (sibling, pointer)) :
    sibling ≠ index ∧ pointerBlock.get sibling = some pointer ∧
      ∀ other, (pointerBlock.get other).isSome → other = index ∨ other = sibling := by
  have distinct : sibling ≠ index := by
    have differs := List.find?_some found
    simp only [bne_iff_ne, ne_eq] at differs
    exact Ne.symm differs
  have hasSibling : pointerBlock.get sibling = some pointer :=
    PointerBlock.mem_asIndexedPointers.mp (List.mem_of_find?_eq_some found)
  exact ⟨distinct, hasSibling, fun other present => PointerBlock.eq_or_eq_of_childCount_le_two (by omega)
    (Ne.symm distinct) node.present (by simp [hasSibling]) present⟩

theorem SpineNode.delete_alone {rest : Parents κ ν δ} (above : Spine ctx store rest path entries)
    (few : ¬ 2 < pointerBlock.childCount)
    (found : pointerBlock.asIndexedPointers.find? (fun entry => index != entry.1) = none) :
    ∃ elements, TrieStore.deleteLoop ctx store [] ((index, .node pointerBlock) :: rest) = some elements ∧
      Rebuilds ctx store elements.reverse (Function.update entries key none) := by
  have only : ∀ other, (pointerBlock.get other).isSome → other = index := by
    intro other present
    obtain ⟨pointer, hasOther⟩ := Option.isSome_iff_exists.mp present
    have same := List.find?_eq_none.mp found (other, pointer) (PointerBlock.mem_asIndexedPointers.mpr hasOther)
    exact (by simpa using same : index = other).symm
  -- a node below the root has two children
  have atRoot : path = [] := by
    by_contra notRoot
    obtain ⟨first, second, distinct, hasFirst, hasSecond⟩ :=
      PointerBlock.two_le_childCount_iff.mp (node.branching notRoot)
    exact distinct ((only first hasFirst).trans (only second hasSecond).symm)
  subst atRoot
  obtain rfl := above.parents_eq_nil
  have empty := node.underPath_update_of_alone onKey leafEntries only
  rw [underPath_nil] at empty
  refine ⟨[(ctx.trieHash (.node .new), .node .new)], by simp [TrieStore.deleteLoop, few, found], ?_⟩
  rw [empty]
  exact rebuilds_reverse_of_root (addressed_nil _) fun store' _ _ => holds_new store'

theorem SpineNode.delete_root (above : Spine ctx store [] path entries) (few : ¬ 2 < pointerBlock.childCount)
    {sibling : UInt8} {pointer : Pointer δ}
    (found : pointerBlock.asIndexedPointers.find? (fun entry => index != entry.1) = some (sibling, pointer)) :
    ∃ elements, TrieStore.deleteLoop ctx store [] [(index, .node pointerBlock)] = some elements ∧
      Rebuilds ctx store elements.reverse (Function.update entries key none) := by
  obtain rfl : path = [] := by
    cases above
    rfl
  have rebuilt := rebuilds_reverse_of_root (addressed_nil _) fun store' keeps (_ : Contains store' []) =>
    (node.keep keeps).holds_vacate fun notRoot => absurd rfl notRoot
  rw [underPath_nil, ← update_eq_plug_empty onKey leafEntries] at rebuilt
  refine ⟨_, ?_, rebuilt⟩
  cases pointer <;> simp [TrieStore.deleteLoop, few, found]

omit onKey leafEntries in
theorem SpineNode.leaf_of_leafPointer {sibling : UInt8} (distinct : sibling ≠ index) {siblingHash : δ}
    (hasSibling : pointerBlock.get sibling = some (.leafPointer siblingHash)) :
    ∃ siblingKey siblingValue, siblingHash = ctx.trieHash (.leaf siblingKey siblingValue) ∧
      store siblingHash = some (.leaf siblingKey siblingValue) ∧
      Holds ctx store (path ++ [sibling]) (.leaf siblingKey siblingValue)
        (underPath ctx (path ++ [sibling]) entries) := by
  obtain ⟨siblingTrie, stored, tagged⟩ := node.linked sibling _ distinct hasSibling
  have holdsSibling := node.sibling sibling _ siblingTrie distinct hasSibling stored
  cases siblingTrie with
  | leaf siblingKey siblingValue =>
    simp only [Trie.pointerTo_leaf, Pointer.leafPointer.injEq] at tagged
    exact ⟨siblingKey, siblingValue, tagged, stored, holdsSibling⟩
  | node => simp at tagged
  | extension => simp at tagged

theorem SpineNode.delete_reseat {grandpath : List UInt8} {grandIndex : UInt8} {grandBlock : PointerBlock δ}
    {rest : Parents κ ν δ} (above : Spine ctx store rest grandpath entries)
    (grandparent : SpineNode ctx store grandpath grandIndex grandBlock entries)
    (pathEq : path = grandpath ++ [grandIndex]) (few : ¬ 2 < pointerBlock.childCount) {sibling : UInt8}
    {siblingHash : δ} (found : pointerBlock.asIndexedPointers.find? (fun entry => index != entry.1) =
      some (sibling, .leafPointer siblingHash)) :
    ∃ elements, TrieStore.deleteLoop ctx store []
        ((index, .node pointerBlock) :: (grandIndex, .node grandBlock) :: rest) = some elements ∧
      Rebuilds ctx store elements.reverse (Function.update entries key none) := by
  obtain ⟨distinct, hasSibling, only⟩ := node.sibling_of_find few found
  obtain ⟨siblingKey, siblingValue, rfl, stored, holdsSibling⟩ := node.leaf_of_leafPointer distinct hasSibling
  -- the sibling is all that is left below the parent
  have moved : underPath ctx path (Function.update entries key none) = single siblingKey siblingValue := by
    rw [node.underPath_update_of_sibling onKey leafEntries distinct only, holdsSibling.leaf_entries]
  have holdsLeaf : ∀ store', Holds ctx store' path (.leaf siblingKey siblingValue)
      (single siblingKey siblingValue) := fun _ => .leaf (List.IsPrefix.of_append_left holdsSibling.leaf_onPath)
  have holds : ∀ store', Keeps ctx.trieHash store store' → Contains store' [] →
      Holds ctx store' grandpath (.node (grandBlock.set grandIndex
        (some (.leafPointer (ctx.trieHash (.leaf siblingKey siblingValue))))))
        (underPath ctx grandpath (plug ctx path entries (single siblingKey siblingValue))) := by
    intro store' keeps _
    subst pathEq
    exact (grandparent.keep keeps).holds (keeps _ stored) (holdsLeaf store') (holdsLeaf store).allUnder
  obtain ⟨elements, looped, rebuilt⟩ :=
    above.deleteLoop (by simp) (fun _ => ⟨_, rfl⟩) (allUnder_underPath _ _) (addressed_nil _) holds
  refine ⟨elements, by simpa [TrieStore.deleteLoop, few, found] using looped, ?_⟩
  rwa [plug_underPath_plug (pathEq ▸ List.prefix_append _ _), ← moved,
    plug_underPath_update (List.IsPrefix.of_append_left onKey)] at rebuilt

/-- One leaf sibling below a grandparent extension: the sibling takes the extension's
place in the great-grandparent node. -/
theorem SpineNode.delete_reseat_extension {greatpath : List UInt8} {greatIndex : UInt8}
    {greatBlock : PointerBlock δ} {rest : Parents κ ν δ} (above : Spine ctx store rest greatpath entries)
    (greatgrandparent : SpineNode ctx store greatpath greatIndex greatBlock entries) {affix : List UInt8}
    (pathEq : path = greatpath ++ [greatIndex] ++ affix)
    (within : ∀ key, greatpath ++ [greatIndex] <+: ctx.keyBytes key → entries key ≠ none →
      greatpath ++ [greatIndex] ++ affix <+: ctx.keyBytes key)
    (few : ¬ 2 < pointerBlock.childCount) {sibling : UInt8} {siblingHash : δ}
    (found : pointerBlock.asIndexedPointers.find? (fun entry => index != entry.1) =
      some (sibling, .leafPointer siblingHash)) {extensionIndex : UInt8} (extensionPointer : Pointer δ) :
    ∃ elements, TrieStore.deleteLoop ctx store []
        ((index, .node pointerBlock) :: (extensionIndex, .extension affix extensionPointer) ::
          (greatIndex, .node greatBlock) :: rest) = some elements ∧
      Rebuilds ctx store elements.reverse (Function.update entries key none) := by
  obtain ⟨distinct, hasSibling, only⟩ := node.sibling_of_find few found
  obtain ⟨siblingKey, siblingValue, rfl, stored, holdsSibling⟩ := node.leaf_of_leafPointer distinct hasSibling
  have onPath : path <+: ctx.keyBytes key := List.IsPrefix.of_append_left onKey
  -- below the extension's place nothing is left but below the parent, that is the sibling
  have moved : underPath ctx (greatpath ++ [greatIndex]) (Function.update entries key none) =
      single siblingKey siblingValue := by
    rw [underPath_eq_of_within (pathEq ▸ List.prefix_append _ _),
      node.underPath_update_of_sibling onKey leafEntries distinct only, holdsSibling.leaf_entries]
    intro other onOther present
    have distinctKey : other ≠ key := by
      rintro rfl
      simp at present
    rw [Function.update_of_ne distinctKey] at present
    exact pathEq ▸ within other onOther present
  have holdsLeaf : ∀ store', Holds ctx store' (greatpath ++ [greatIndex]) (.leaf siblingKey siblingValue)
      (single siblingKey siblingValue) := fun _ =>
    .leaf (List.IsPrefix.of_append_left (pathEq ▸ List.IsPrefix.of_append_left holdsSibling.leaf_onPath))
  have holds : ∀ store', Keeps ctx.trieHash store store' → Contains store' [] →
      Holds ctx store' greatpath (.node (greatBlock.set greatIndex
        (some (.leafPointer (ctx.trieHash (.leaf siblingKey siblingValue))))))
        (underPath ctx greatpath (plug ctx (greatpath ++ [greatIndex]) entries
          (single siblingKey siblingValue))) := fun store' keeps _ =>
    (greatgrandparent.keep keeps).holds (keeps _ stored) (holdsLeaf store') (holdsLeaf store).allUnder
  obtain ⟨elements, looped, rebuilt⟩ :=
    above.deleteLoop (by simp) (fun _ => ⟨_, rfl⟩) (allUnder_underPath _ _) (addressed_nil _) holds
  refine ⟨elements, by simpa [TrieStore.deleteLoop, few, found] using looped, ?_⟩
  have onExtension : greatpath ++ [greatIndex] <+: ctx.keyBytes key :=
    List.IsPrefix.of_append_left (pathEq ▸ onPath)
  rwa [plug_underPath_plug (List.prefix_append _ _), ← moved, plug_underPath_update onExtension] at rebuilt

/-- One node or extension sibling below a grandparent: the parent becomes an extension
leading to it, which the loop then reseats into the grandparent. -/
theorem SpineNode.delete_extend {grand : UInt8 × Trie κ ν δ} {rest : Parents κ ν δ}
    (above : Spine ctx store (grand :: rest) path entries) (few : ¬ 2 < pointerBlock.childCount)
    {sibling : UInt8} {siblingHash : δ} (found : pointerBlock.asIndexedPointers.find? (fun entry => index != entry.1) =
      some (sibling, .nodePointer siblingHash)) :
    ∃ elements, TrieStore.deleteLoop ctx store [] ((index, .node pointerBlock) :: grand :: rest) =
      some elements ∧ Rebuilds ctx store elements.reverse (Function.update entries key none) := by
  obtain ⟨distinct, hasSibling, only⟩ := node.sibling_of_find few found
  obtain ⟨siblingTrie, stored, tagged⟩ := node.linked sibling _ distinct hasSibling
  have holdsSibling := node.sibling sibling _ siblingTrie distinct hasSibling stored
  have notRoot : path ≠ [] := above.hole_ne_nil (List.cons_ne_nil _ _)
  have moved := node.underPath_update_of_sibling onKey leafEntries distinct only
  have onPath : path <+: ctx.keyBytes key := List.IsPrefix.of_append_left onKey
  obtain ⟨grandIndex, grandTrie⟩ := grand
  have grandNotLeaf : ∀ leafKey leafValue, grandTrie ≠ .leaf leafKey leafValue := by
    rintro leafKey leafValue rfl
    cases above
  -- the extension leads to the sibling's node, taking over the sibling's affix if it has one
  obtain ⟨extension, notLeaf, holds, looped⟩ : ∃ extension : Trie κ ν δ,
      (∀ leafKey leafValue, extension ≠ .leaf leafKey leafValue) ∧ (∀ store', Keeps ctx.trieHash store store' → Contains store' [] →
        Holds ctx store' path extension (underPath ctx path (Function.update entries key none))) ∧
      TrieStore.deleteLoop ctx store [] ((index, .node pointerBlock) :: (grandIndex, grandTrie) :: rest) =
        TrieStore.deleteLoop ctx store [(ctx.trieHash extension, extension)] ((grandIndex, grandTrie) :: rest) := by
    cases siblingTrie with
    | leaf => simp at tagged
    | node siblingBlock =>
      simp only [Trie.pointerTo_node, Pointer.nodePointer.injEq] at tagged
      subst tagged
      rw [Pointer.hash_nodePointer] at stored
      refine ⟨.extension [sibling] (.nodePointer (ctx.trieHash (.node siblingBlock))), by simp,
        fun store' keeps _ => ?_, ?_⟩
      · rw [moved]
        exact .extension notRoot (List.cons_ne_nil _ _) (keeps _ stored) (holdsSibling.keep keeps)
      · cases grandTrie with
        | leaf leafKey leafValue => exact absurd rfl (grandNotLeaf leafKey leafValue)
        | node => simp [TrieStore.deleteLoop, few, found, stored]
        | extension => simp [TrieStore.deleteLoop, few, found, stored]
    | extension siblingAffix siblingPointer =>
      simp only [Trie.pointerTo_extension, Pointer.nodePointer.injEq] at tagged
      subst tagged
      rw [Pointer.hash_nodePointer] at stored
      refine ⟨.extension (sibling :: siblingAffix) siblingPointer, by simp, fun store' keeps _ => ?_, ?_⟩
      · obtain ⟨target, rfl, -, -, storedTarget, holdsTarget⟩ := (holdsSibling.keep keeps).extension_inv
        rw [moved]
        exact .extension notRoot (List.cons_ne_nil _ _) storedTarget (by simpa using holdsTarget)
      · cases grandTrie with
        | leaf leafKey leafValue => exact absurd rfl (grandNotLeaf leafKey leafValue)
        | node => simp [TrieStore.deleteLoop, few, found, stored]
        | extension => simp [TrieStore.deleteLoop, few, found, stored]
  obtain ⟨elements, loopedOn, rebuilt⟩ := above.deleteLoop notLeaf (fun nil => absurd nil (List.cons_ne_nil _ _))
    (allUnder_underPath _ _) (addressed_nil _) holds
  refine ⟨elements, looped ▸ loopedOn, ?_⟩
  rwa [plug_underPath_update onPath] at rebuilt

end Leaf

end Vacate

section Delete

variable [DecidableEq κ] {store : δ → Option (Trie κ ν δ)} {entries : κ → Option ν} {key : κ}

/-- The loop of `delete` from the scan that found the key's leaf: one case per branch of
the loop's first step. -/
theorem Scanned.deleteElements {leafValue : ν} {parents : Parents κ ν δ} {hole : List UInt8}
    (scanned : Scanned ctx store entries key ⟨.leaf key leafValue, parents⟩ hole) :
    ∃ elements, TrieStore.deleteLoop ctx store [] parents = some elements ∧
      Rebuilds ctx store elements.reverse (Function.update entries key none) := by
  have spine : Spine ctx store parents hole entries := scanned.spine
  have holdsLeaf : Holds ctx store hole (.leaf key leafValue) (underPath ctx hole entries) := scanned.holds
  have notNode : ∀ pointerBlock : PointerBlock δ, Trie.leaf key leafValue ≠ .node pointerBlock := by simp
  obtain ⟨index, pointerBlock, rest, rfl⟩ := spine.node_head scanned.fits notNode
  obtain ⟨path, rfl, above, node⟩ := spine.node_inv
  have onKey : path ++ [index] <+: ctx.keyBytes key := scanned.onPath
  have leafEntries := holdsLeaf.leaf_entries
  by_cases many : 2 < pointerBlock.childCount
  · exact node.delete_many onKey leafEntries above many
  cases found : pointerBlock.asIndexedPointers.find? (fun entry => index != entry.1) with
  | none => exact node.delete_alone onKey leafEntries above many found
  | some sibling =>
    obtain ⟨sibling, pointer⟩ := sibling
    cases rest with
    | nil => exact node.delete_root onKey leafEntries above many found
    | cons grand rest =>
      cases pointer with
      | nodePointer siblingHash => exact node.delete_extend onKey leafEntries above many found
      | leafPointer siblingHash =>
        obtain ⟨grandIndex, grandTrie⟩ := grand
        cases grandTrie with
        | leaf => cases above
        | node grandBlock =>
          obtain ⟨grandpath, rfl, above', grandparent⟩ := above.node_inv
          exact node.delete_reseat onKey leafEntries above' grandparent rfl many found
        | extension affix extensionPointer =>
          obtain ⟨extensionPath, greatIndex, greatBlock, rest', hash, rfl, rfl, rfl, above', -, within⟩ :=
            above.extension_inv
          obtain ⟨greatpath, rfl, above'', greatgrandparent⟩ := above'.node_inv
          exact node.delete_reseat_extension onKey leafEntries above'' greatgrandparent rfl within many found _

section Sound

variable (sound : ctx.Sound)
include sound

/-- `delete` on a well-formed root never fails. It answers `doesNotExist`, leaving the
store as it was, exactly when the key has no entry; otherwise it returns a well-formed
root holding the entries without the key's, and the store keeps every node it held. -/
theorem RootHolds.delete [DecidableEq δ] {root : δ} (rootHolds : RootHolds ctx store root entries) (key : κ) :
    ∃ result store', TrieStore.delete ctx store root key = some (result, store') ∧
      (entries key = none ∧ result = .doesNotExist ∧ store' = store ∨
        entries key ≠ none ∧ ∃ root', result = .deleted root' ∧
          RootHolds ctx store' root' (Function.update entries key none) ∧ Keeps ctx.trieHash store store') := by
  obtain ⟨pointerBlock, scan, hole, stored, scanned, facts⟩ := rootHolds.scanRaw sound key
  have entry := facts.entry
  obtain ⟨tip, parents⟩ := scan
  cases tip with
  | leaf leafKey leafValue =>
    by_cases same : leafKey = key
    · subst same
      obtain ⟨elements, looped, addressed, newRoot, rootTrie, last, rebuilt⟩ := facts.deleteElements
      rw [List.getLast?_reverse] at last
      obtain ⟨rest, rfl⟩ : ∃ rest, elements = (newRoot, rootTrie) :: rest := by
        cases elements with
        | nil => simp at last
        | cons head rest =>
          simp only [List.head?_cons, Option.some.injEq] at last
          exact ⟨rest, by rw [last]⟩
      have keeps := keeps_putAll sound.hash_injective store addressed
      have present : entries leafKey ≠ none := by simp [entry, single]
      refine ⟨.deleted newRoot, _, by simp [TrieStore.delete, stored, scanned, looped], .inr ⟨present, newRoot,
        rfl, rebuilt _ keeps (contains_putAll sound.hash_injective store addressed), keeps⟩⟩
    · have absent : entries key = none := by simpa [single, Ne.symm same] using entry
      exact ⟨.doesNotExist, store, by simp [TrieStore.delete, stored, scanned, same], .inl ⟨absent, rfl, rfl⟩⟩
  | node => exact ⟨.doesNotExist, store, by simp [TrieStore.delete, stored, scanned], .inl ⟨entry, rfl, rfl⟩⟩
  | extension => exact ⟨.doesNotExist, store, by simp [TrieStore.delete, stored, scanned], .inl ⟨entry, rfl, rfl⟩⟩

end Sound

end Delete

end TrieStore
