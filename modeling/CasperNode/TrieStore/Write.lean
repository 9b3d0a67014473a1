import CasperNode.TrieStore.Rehash

/-!
`write` on a well-formed root. Whatever the scan for the key stops at (a leaf with
the same key, a leaf with another key, a node without a child for the key's next
byte, an extension the key leaves), the elements `write` builds hold the old
entries with the new one added, in a trie of the same shape, and the store keeps
every node it held.
-/

namespace TrieStore

open ContentStore

variable {κ ν δ : Type} {ctx : TrieContext κ ν δ}

section Entries

theorem underPath_update_of_offPath [DecidableEq κ] {path : List UInt8} {entries : κ → Option ν}
    {key : κ} (offPath : ¬ path <+: ctx.keyBytes key) (value : Option ν) :
    underPath ctx path (Function.update entries key value) = underPath ctx path entries := by
  funext other
  by_cases onPath : path <+: ctx.keyBytes other
  · have distinct : other ≠ key := by
      rintro rfl
      exact offPath onPath
    simp [onPath, distinct]
  · simp [onPath]

theorem plug_update [DecidableEq κ] {hole : List UInt8} {entries : κ → Option ν} {key : κ}
    (onPath : hole <+: ctx.keyBytes key) (value : Option ν) :
    plug ctx hole entries (Function.update (underPath ctx hole entries) key value) =
      Function.update entries key value := by
  funext other
  by_cases same : other = key
  · subst same
    simp [onPath]
  · by_cases onOther : hole <+: ctx.keyBytes other <;> simp [onOther, same]

theorem update_single [DecidableEq κ] (key : κ) (old value : ν) :
    Function.update (single key old) key (some value) = single key value := by
  funext other
  by_cases same : other = key
  · subst same
    simp [single]
  · simp [single, same]

theorem AllUnder.update [DecidableEq κ] {path : List UInt8} {entries : κ → Option ν}
    (under : AllUnder ctx path entries) {key : κ} (onPath : path <+: ctx.keyBytes key) (value : Option ν) :
    AllUnder ctx path (Function.update entries key value) := by
  intro other present
  by_cases same : other = key
  · subst same
    exact onPath
  · rw [Function.update_of_ne same] at present
    exact under other present

theorem allUnder_single [DecidableEq κ] {path : List UInt8} {key : κ} (onPath : path <+: ctx.keyBytes key)
    (value : ν) : AllUnder ctx path (single key value) := by
  intro other present
  by_cases same : other = key
  · subst same
    exact onPath
  · simp [single, same] at present

end Entries

section Build

variable [DecidableEq κ] {store : δ → Option (Trie κ ν δ)}

theorem Holds.addLeaf {hole : List UInt8} {pointerBlock : PointerBlock δ} {entries : κ → Option ν}
    (holds : Holds ctx store hole (.node pointerBlock) entries) {index : UInt8}
    (absent : pointerBlock.get index = none) {key : κ} {value : ν}
    (onIndex : hole ++ [index] <+: ctx.keyBytes key)
    (stored : store (ctx.trieHash (.leaf key value)) = some (.leaf key value)) :
    Holds ctx store hole
      (.node (pointerBlock.set index (some (.leafPointer (ctx.trieHash (.leaf key value))))))
      (Function.update entries key (some value)) := by
  cases holds with
  | node linked child vacant below branching =>
  -- the other children do not see the new key
  have offOther : ∀ other, other ≠ index → ¬ hole ++ [other] <+: ctx.keyBytes key := fun other distinct onOther =>
    distinct (List.eq_of_append_singleton_prefixes onOther onIndex)
  refine .node (fun other pointer found => ?_) (fun other pointer trie found stored' => ?_)
    (fun other key' absent' onOther => ?_) (fun key' present => ?_) (fun notRoot => ?_)
  · by_cases same : other = index
    · subst same
      simp only [PointerBlock.get_set, ↓reduceIte, Option.some.injEq] at found
      subst found
      exact ⟨_, stored, rfl⟩
    · rw [PointerBlock.get_set, if_neg same] at found
      exact linked other pointer found
  · by_cases same : other = index
    · subst same
      simp only [PointerBlock.get_set, ↓reduceIte, Option.some.injEq] at found
      subst found
      rw [Pointer.hash_leafPointer, stored] at stored'
      obtain rfl := Option.some.inj stored'
      -- below the vacant index the new leaf is the only entry
      have onlyLeaf : underPath ctx (hole ++ [other]) (Function.update entries key (some value)) =
          single key value := by
        funext key'
        by_cases same : key' = key
        · subst same
          simp [onIndex, single]
        · by_cases onKey : hole ++ [other] <+: ctx.keyBytes key'
          · simp [onKey, same, single, vacant other key' absent onKey]
          · simp [onKey, same, single]
      rw [onlyLeaf]
      exact .leaf onIndex
    · rw [PointerBlock.get_set, if_neg same] at found
      rw [underPath_update_of_offPath (offOther other same)]
      exact child other pointer trie found stored'
  · have same : other ≠ index := by
      rintro rfl
      simp at absent'
    rw [PointerBlock.get_set, if_neg same] at absent'
    have distinct : key' ≠ key := by
      rintro rfl
      exact offOther other same onOther
    rw [Function.update_of_ne distinct]
    exact vacant other key' absent' onOther
  · by_cases same : key' = key
    · subst same
      have := onIndex.length_le
      simp only [List.length_append, List.length_singleton] at this
      exact ⟨List.IsPrefix.of_append_left onIndex, by omega⟩
    · rw [Function.update_of_ne same] at present
      exact below key' present
  · exact (branching notRoot).trans (PointerBlock.childCount_le_set_some _ _ _)

theorem Holds.pair {shared : List UInt8} {index otherIndex : UInt8} (distinct : index ≠ otherIndex)
    {key : κ} {value : ν} (onIndex : shared ++ [index] <+: ctx.keyBytes key)
    (storedLeaf : store (ctx.trieHash (.leaf key value)) = some (.leaf key value))
    {other : Trie κ ν δ} {inner : κ → Option ν}
    (holdsOther : Holds ctx store (shared ++ [otherIndex]) other inner)
    (storedOther : store (ctx.trieHash other) = some other) :
    Holds ctx store shared
      (.node ((PointerBlock.fromIndexedPointers [(otherIndex, other.pointerTo (ctx.trieHash other))]).set
        index (some (.leafPointer (ctx.trieHash (.leaf key value))))))
      (Function.update inner key (some value)) := by
  have offOther : ¬ shared ++ [otherIndex] <+: ctx.keyBytes key := fun onOther =>
    distinct (List.eq_of_append_singleton_prefixes onIndex onOther)
  have innerUnder := holdsOther.allUnder
  refine .node (fun child pointer found => ?_) (fun child pointer trie found stored' => ?_)
    (fun child key' absent onChild => ?_) (fun key' present => ?_) (fun _ => ?_)
  · by_cases isIndex : child = index
    · subst isIndex
      simp only [PointerBlock.get_set, ↓reduceIte, Option.some.injEq] at found
      subst found
      exact ⟨_, storedLeaf, rfl⟩
    · have isOther : child = otherIndex := by
        by_contra isOther
        simp [isIndex, isOther] at found
      subst isOther
      simp only [PointerBlock.get_set, isIndex, ↓reduceIte,
        PointerBlock.get_fromIndexedPointers_single, Option.some.injEq] at found
      subst found
      exact ⟨other, by simpa using storedOther, rfl⟩
  · by_cases isIndex : child = index
    · subst isIndex
      simp only [PointerBlock.get_set, ↓reduceIte, Option.some.injEq] at found
      subst found
      rw [Pointer.hash_leafPointer, storedLeaf] at stored'
      obtain rfl := Option.some.inj stored'
      have onlyLeaf : underPath ctx (shared ++ [child]) (Function.update inner key (some value)) =
          single key value := by
        funext key'
        by_cases same : key' = key
        · subst same
          simp [onIndex, single]
        · by_cases onKey : shared ++ [child] <+: ctx.keyBytes key'
          · have absent : inner key' = none := by
              by_contra present
              exact distinct (List.eq_of_append_singleton_prefixes onKey (innerUnder key' present))
            simp [onKey, same, single, absent]
          · simp [onKey, same, single]
      rw [onlyLeaf]
      exact .leaf onIndex
    · have isOther : child = otherIndex := by
        by_contra isOther
        simp [isIndex, isOther] at found
      subst isOther
      simp only [PointerBlock.get_set, isIndex, ↓reduceIte,
        PointerBlock.get_fromIndexedPointers_single, Option.some.injEq] at found
      subst found
      rw [Trie.hash_pointerTo, storedOther] at stored'
      obtain rfl := Option.some.inj stored'
      rwa [underPath_update_of_offPath offOther, underPath_eq_of_allUnder innerUnder]
  · have isIndex : child ≠ index := by
      rintro rfl
      simp at absent
    have isOther : child ≠ otherIndex := by
      rintro rfl
      simp [isIndex] at absent
    have distinctKey : key' ≠ key := by
      rintro rfl
      exact isIndex (List.eq_of_append_singleton_prefixes onChild onIndex)
    rw [Function.update_of_ne distinctKey]
    by_contra present
    exact isOther (List.eq_of_append_singleton_prefixes onChild (innerUnder key' present))
  · by_cases same : key' = key
    · subst same
      have := onIndex.length_le
      simp only [List.length_append, List.length_singleton] at this
      exact ⟨List.IsPrefix.of_append_left onIndex, by omega⟩
    · rw [Function.update_of_ne same] at present
      have onOther := innerUnder key' present
      have := onOther.length_le
      simp only [List.length_append, List.length_singleton] at this
      exact ⟨List.IsPrefix.of_append_left onOther, by omega⟩
  · refine PointerBlock.two_le_childCount_iff.mpr ⟨index, otherIndex, distinct, ?_, ?_⟩
    · simp
    · simp [Ne.symm distinct]

end Build

theorem Fits.swap {parents : Parents κ ν δ} {tip : Trie κ ν δ} (fits : Fits parents tip)
    (notNode : ∀ pointerBlock, tip ≠ .node pointerBlock) (tip' : Trie κ ν δ) : Fits parents tip' := by
  match parents, fits with
  | [], ⟨pointerBlock, isNode⟩ => exact absurd isNode (notNode pointerBlock)
  | (_, .extension ..) :: _, ⟨pointerBlock, isNode⟩ => exact absurd isNode (notNode pointerBlock)
  | (_, .leaf ..) :: _, _ => trivial
  | (_, .node _) :: _, _ => trivial

section Rebuild

variable [DecidableEq κ] {store : δ → Option (Trie κ ν δ)}

variable (ctx store) in
/-- Once kept in a store that keeps `store`, the `elements` give a root, their last one,
whose trie holds `entries`: what `write` and `delete` build. -/
def Rebuilds (elements : List (δ × Trie κ ν δ)) (entries : κ → Option ν) : Prop :=
  Addressed ctx.trieHash elements ∧ ∃ root rootTrie, elements.getLast? = some (root, rootTrie) ∧
    ∀ store', Keeps ctx.trieHash store store' → Contains store' elements → RootHolds ctx store' root entries

theorem Spine.node_head {parents : Parents κ ν δ} {hole : List UInt8} {entries : κ → Option ν}
    (spine : Spine ctx store parents hole entries) {tip : Trie κ ν δ} (fits : Fits parents tip)
    (notNode : ∀ pointerBlock, tip ≠ .node pointerBlock) :
    ∃ index pointerBlock rest, parents = (index, .node pointerBlock) :: rest := by
  cases spine with
  | root =>
    obtain ⟨pointerBlock, isNode⟩ := fits
    exact absurd isNode (notNode pointerBlock)
  | node => exact ⟨_, _, _, rfl⟩
  | extension =>
    obtain ⟨pointerBlock, isNode⟩ := fits
    exact absurd isNode (notNode pointerBlock)

/-- A new trie at the bottom of a spine, rehashed up to the root, after the elements
`pre` written first. -/
theorem Spine.rebuilds {parents : Parents κ ν δ} {hole : List UInt8} {entries : κ → Option ν}
    (spine : Spine ctx store parents hole entries) {tip : Trie κ ν δ} {inner : κ → Option ν}
    (fits : Fits parents tip) (under : AllUnder ctx hole inner) {pre rest : List (δ × Trie κ ν δ)}
    (addressed : Addressed ctx.trieHash pre) (rehashed : TrieStore.rehash ctx tip parents = some rest)
    (holds : ∀ store', Keeps ctx.trieHash store store' → Contains store' (pre ++ rest) →
      Holds ctx store' hole tip inner) :
    Rebuilds ctx store (pre ++ rest) (plug ctx hole entries inner) := by
  have nonempty : rest ≠ [] := List.ne_nil_of_mem (rehash_head rehashed)
  obtain ⟨⟨root, rootTrie⟩, last⟩ := Option.isSome_iff_exists.mp (List.getLast?_isSome.mpr nonempty)
  refine ⟨?_, root, rootTrie, by rw [List.getLast?_append_of_ne_nil _ nonempty, last],
    fun store' keeps contains => ?_⟩
  · exact addressed.append (rehash_addressed rehashed)
  · obtain ⟨root', rootTrie', last', rootHolds⟩ := (spine.keep keeps).rehash fits
      (holds store' keeps contains) under rehashed (contains.mono (List.subset_append_right _ _))
    rw [last, Option.some.injEq, Prod.mk.injEq] at last'
    obtain ⟨rfl, -⟩ := last'
    exact rootHolds

theorem Spine.rebuilds_node {parents : Parents κ ν δ} {hole : List UInt8} {entries : κ → Option ν}
    (spine : Spine ctx store parents hole entries) {leaf : Trie κ ν δ} {index : UInt8}
    {pointerBlock : PointerBlock δ} {inner : κ → Option ν} (under : AllUnder ctx hole inner)
    {pre elements : List (δ × Trie κ ν δ)} (addressed : Addressed ctx.trieHash pre)
    (rehashed : TrieStore.rehash ctx leaf ((index, .node pointerBlock) :: parents) = some elements)
    (holds : ∀ store', Keeps ctx.trieHash store store' → Contains store' (pre ++ elements) →
      Holds ctx store' hole (.node (pointerBlock.set index (some (leaf.pointerTo (ctx.trieHash leaf))))) inner) :
    Rebuilds ctx store (pre ++ elements) (plug ctx hole entries inner) := by
  obtain ⟨rest, rehashedRest, rfl⟩ := rehash_node_eq_some.mp rehashed
  have shape : pre ++ (ctx.trieHash leaf, leaf) :: rest = (pre ++ [(ctx.trieHash leaf, leaf)]) ++ rest := by
    simp
  have addressed' : Addressed ctx.trieHash (pre ++ [(ctx.trieHash leaf, leaf)]) :=
    addressed.append ((addressed_nil _).cons leaf)
  rw [shape]
  exact spine.rebuilds (fits_node _ _) under addressed' rehashedRest fun store' keeps contains =>
    holds store' keeps (shape ▸ contains)

theorem Spine.rebuilds_extension {parents : Parents κ ν δ} {hole : List UInt8} {entries : κ → Option ν}
    (spine : Spine ctx store parents hole entries) (fits : ∀ tip, Fits parents tip) (notRoot : hole ≠ [])
    {affix : List UInt8} (nonempty : affix ≠ []) {leaf : Trie κ ν δ} {index extensionIndex : UInt8}
    {pointerBlock : PointerBlock δ} {hash : δ} {inner : κ → Option ν}
    (under : AllUnder ctx (hole ++ affix) inner) {pre elements : List (δ × Trie κ ν δ)}
    (addressed : Addressed ctx.trieHash pre)
    (rehashed : TrieStore.rehash ctx leaf ((index, .node pointerBlock) ::
      (extensionIndex, .extension affix (.nodePointer hash)) :: parents) = some elements)
    (holds : ∀ store', Keeps ctx.trieHash store store' → Contains store' (pre ++ elements) →
      Holds ctx store' (hole ++ affix)
        (.node (pointerBlock.set index (some (leaf.pointerTo (ctx.trieHash leaf))))) inner) :
    Rebuilds ctx store (pre ++ elements) (plug ctx hole entries inner) := by
  obtain ⟨below, rehashedNode, rfl⟩ := rehash_node_eq_some.mp rehashed
  obtain ⟨rest, rehashedRest, rfl⟩ := rehash_extension_eq_some.mp rehashedNode
  rw [Pointer.nodePointer_update] at rehashedRest
  set node : Trie κ ν δ := .node (pointerBlock.set index (some (leaf.pointerTo (ctx.trieHash leaf))))
  have shape : pre ++ (ctx.trieHash leaf, leaf) :: (ctx.trieHash node, node) :: rest =
      (pre ++ [(ctx.trieHash leaf, leaf), (ctx.trieHash node, node)]) ++ rest := by
    simp
  have addressed' : Addressed ctx.trieHash (pre ++ [(ctx.trieHash leaf, leaf), (ctx.trieHash node, node)]) :=
    addressed.append (((addressed_nil _).cons node).cons leaf)
  rw [shape]
  refine spine.rebuilds (fits _) (under.mono (List.prefix_append hole affix)) addressed' rehashedRest
    fun store' keeps contains => ?_
  -- the node is kept by the write, so the extension above it holds
  have stored : store' (ctx.trieHash node) = some node := contains (ctx.trieHash node, node) (by simp)
  exact .extension notRoot nonempty stored (holds store' keeps (shape ▸ contains))

theorem Spine.rehash_node_isSome {parents : Parents κ ν δ} {hole : List UInt8} {entries : κ → Option ν}
    (spine : Spine ctx store parents hole entries) (tip : Trie κ ν δ) (index : UInt8)
    (pointerBlock : PointerBlock δ) :
    ∃ elements, TrieStore.rehash ctx tip ((index, .node pointerBlock) :: parents) = some elements := by
  obtain ⟨rest, rehashed⟩ :=
    spine.rehash_isSome (.node (pointerBlock.set index (some (tip.pointerTo (ctx.trieHash tip)))))
  exact ⟨_, rehash_node_eq_some.mpr ⟨rest, rehashed, rfl⟩⟩

theorem Spine.rehash_extension_isSome {parents : Parents κ ν δ} {hole : List UInt8}
    {entries : κ → Option ν} (spine : Spine ctx store parents hole entries) (tip : Trie κ ν δ)
    (index extensionIndex : UInt8) (pointerBlock : PointerBlock δ) (affix : List UInt8) (hash : δ) :
    ∃ elements, TrieStore.rehash ctx tip ((index, .node pointerBlock) ::
      (extensionIndex, .extension affix (.nodePointer hash)) :: parents) = some elements := by
  let node : Trie κ ν δ := .node (pointerBlock.set index (some (tip.pointerTo (ctx.trieHash tip))))
  obtain ⟨rest, rehashed⟩ := spine.rehash_isSome (.extension affix (.nodePointer (ctx.trieHash node)))
  have rehashedNode : TrieStore.rehash ctx node ((extensionIndex, .extension affix (.nodePointer hash)) ::
      parents) = some ((ctx.trieHash node, node) :: rest) :=
    rehash_extension_eq_some.mpr ⟨rest, by rwa [Pointer.nodePointer_update], rfl⟩
  exact ⟨_, rehash_node_eq_some.mpr ⟨_, rehashedNode, rfl⟩⟩

/-- The new leaf and an old `child` under a new node at `shared`, where the key parts from
the child. The node takes the hole's place, or an extension from the hole leads to it. -/
theorem Spine.rebuilds_pair {parents : Parents κ ν δ} {hole : List UInt8} {entries : κ → Option ν}
    (spine : Spine ctx store parents hole entries) (fits : ∀ tip, Fits parents tip) (notRoot : hole ≠ [])
    (parentsPath : getParentsPath parents = hole) {key : κ} {shared : List UInt8}
    (onShared : hole <+: shared) (sharedOnKey : shared <+: ctx.keyBytes key)
    (shorterKey : shared.length < (ctx.keyBytes key).length) {otherIndex : UInt8}
    (parting : (ctx.keyBytes key)[shared.length] ≠ otherIndex) {child : Trie κ ν δ} {inner : κ → Option ν}
    {pre : List (δ × Trie κ ν δ)} (addressed : Addressed ctx.trieHash pre)
    (under : AllUnder ctx (shared ++ [otherIndex]) inner)
    (holdsChild : ∀ store', Keeps ctx.trieHash store store' → Contains store' pre →
      store' (ctx.trieHash child) = some child ∧ Holds ctx store' (shared ++ [otherIndex]) child inner)
    (value : ν) {newParents : Parents κ ν δ}
    (placed : newParents = parents ∧ shared = hole ∨
      ∃ index, shared.drop hole.length ≠ [] ∧ newParents = (index, .extension (shared.drop hole.length)
        (.nodePointer (ctx.trieHash
          (.node (.fromIndexedPointers [(otherIndex, child.pointerTo (ctx.trieHash child))]))))) :: parents) :
    ∃ parents' elements, addNodeToParents (ctx.keyBytes key)
        (.node (.fromIndexedPointers [(otherIndex, child.pointerTo (ctx.trieHash child))])) newParents =
        some parents' ∧ TrieStore.rehash ctx (.leaf key value) parents' = some elements ∧
      Rebuilds ctx store (pre ++ elements) (plug ctx hole entries (Function.update inner key (some value))) := by
  set newNode : PointerBlock δ := .fromIndexedPointers [(otherIndex, child.pointerTo (ctx.trieHash child))]
  have holdsNew : ∀ store', Keeps ctx.trieHash store store' → Contains store' pre →
      store' (ctx.trieHash (.leaf key value)) = some (.leaf key value) →
      Holds ctx store' shared (.node (newNode.set (ctx.keyBytes key)[shared.length]
        (some (.leafPointer (ctx.trieHash (.leaf key value)))))) (Function.update inner key (some value)) :=
    fun store' keeps contains storedLeaf =>
      Holds.pair parting (List.prefix_append_getElem sharedOnKey shorterKey) storedLeaf
        (holdsChild store' keeps contains).2 (holdsChild store' keeps contains).1
  have underNew : AllUnder ctx shared (Function.update inner key (some value)) :=
    (under.mono (List.prefix_append _ _)).update sharedOnKey _
  rcases placed with ⟨rfl, rfl⟩ | ⟨index, nonempty, rfl⟩
  · -- the new node takes the hole's place
    have added : addNodeToParents (ctx.keyBytes key) (.node newNode) newParents =
        some (((ctx.keyBytes key)[shared.length], .node newNode) :: newParents) := by
      simp [addNodeToParents, parentsPath, commonPrefix_eq_right sharedOnKey, shorterKey]
    obtain ⟨elements, rehashed⟩ :=
      spine.rehash_node_isSome (.leaf key value) (ctx.keyBytes key)[shared.length] newNode
    refine ⟨_, elements, added, rehashed, ?_⟩
    exact spine.rebuilds_node underNew addressed rehashed fun store' keeps contains =>
      holdsNew store' keeps (contains.mono (List.subset_append_left _ _))
        (contains _ (List.mem_append_right _ (rehash_head rehashed)))
  · -- an extension leads from the hole to the new node
    have affixEq : hole ++ shared.drop hole.length = shared := List.prefix_iff_eq_append.mp onShared
    have added : addNodeToParents (ctx.keyBytes key) (.node newNode)
        ((index, .extension (shared.drop hole.length) (.nodePointer (ctx.trieHash (.node newNode)))) ::
          parents) =
        some (((ctx.keyBytes key)[shared.length], .node newNode) ::
          (index, .extension (shared.drop hole.length) (.nodePointer (ctx.trieHash (.node newNode)))) ::
          parents) := by
      simp [addNodeToParents, parentsPath, affixEq, commonPrefix_eq_right sharedOnKey, shorterKey]
    obtain ⟨elements, rehashed⟩ := spine.rehash_extension_isSome (.leaf key value)
      (ctx.keyBytes key)[shared.length] index newNode (shared.drop hole.length) (ctx.trieHash (.node newNode))
    refine ⟨_, elements, added, rehashed, ?_⟩
    exact spine.rebuilds_extension fits notRoot nonempty (by rw [affixEq]; exact underNew) addressed rehashed
      fun store' keeps contains => by
        rw [affixEq]
        exact holdsNew store' keeps (contains.mono (List.subset_append_left _ _))
          (contains _ (List.mem_append_right _ (rehash_head rehashed)))

end Rebuild

section Cases

variable [DecidableEq κ] [DecidableEq ν] {store : δ → Option (Trie κ ν δ)} {entries : κ → Option ν}
  {key : κ}

/-- The scan stopped at a node without a child for the key's next byte: the new leaf
becomes that child. -/
theorem Scanned.write_node {pointerBlock : PointerBlock δ} {parents : Parents κ ν δ} {hole : List UInt8}
    (scanned : Scanned ctx store entries key ⟨.node pointerBlock, parents⟩ hole) (value : ν) :
    ∃ elements, writeElements ctx key value (ctx.keyBytes key) (.node pointerBlock) parents = some elements ∧
      Rebuilds ctx store elements (Function.update entries key (some value)) := by
  obtain ⟨index, onIndex, absent⟩ : ∃ index, hole ++ [index] <+: ctx.keyBytes key ∧
      pointerBlock.get index = none := scanned.stops
  have shorter : hole.length < (ctx.keyBytes key).length := by
    have := onIndex.length_le
    simp only [List.length_append, List.length_singleton] at this
    omega
  have atIndex : (ctx.keyBytes key)[hole.length] = index :=
    List.eq_of_append_singleton_prefixes (List.prefix_append_getElem scanned.onPath shorter) onIndex
  have spine : Spine ctx store parents hole entries := scanned.spine
  have parentsPath : getParentsPath parents = hole := scanned.parentsPath
  have added : addNodeToParents (ctx.keyBytes key) (.node pointerBlock) parents =
      some ((index, .node pointerBlock) :: parents) := by
    simp [addNodeToParents, parentsPath, commonPrefix_eq_right scanned.onPath, shorter, atIndex]
  obtain ⟨elements, rehashed⟩ : ∃ elements, TrieStore.rehash ctx (.leaf key value)
      ((index, .node pointerBlock) :: parents) = some elements :=
    spine.rehash_node_isSome _ index pointerBlock
  refine ⟨elements, by simp [writeElements, added, rehashed], ?_⟩
  have rebuilt := spine.rebuilds_node ((allUnder_underPath hole entries).update scanned.onPath _)
    (addressed_nil _) rehashed fun store' keeps contains =>
      (scanned.holds.keep keeps).addLeaf absent onIndex
        (contains _ (List.mem_append_right [] (rehash_head rehashed)))
  rwa [List.nil_append, plug_update scanned.onPath] at rebuilt

theorem Scanned.write_update {leafValue : ν} {parents : Parents κ ν δ} {hole : List UInt8}
    (scanned : Scanned ctx store entries key ⟨.leaf key leafValue, parents⟩ hole) {value : ν}
    (changed : value ≠ leafValue) :
    ∃ elements, writeElements ctx key value (ctx.keyBytes key) (.leaf key leafValue) parents = some elements ∧
      Rebuilds ctx store elements (Function.update entries key (some value)) := by
  have spine : Spine ctx store parents hole entries := scanned.spine
  have notNode : ∀ pointerBlock : PointerBlock δ, Trie.leaf key leafValue ≠ .node pointerBlock := by simp
  obtain ⟨elements, rehashed⟩ := spine.rehash_isSome (.leaf key value)
  refine ⟨elements, by simp [writeElements, changed, rehashed], ?_⟩
  have holdsLeaf : ∀ store', Holds ctx store' hole (.leaf key value) (single key value) :=
    fun _ => .leaf scanned.onPath
  have rebuilt := spine.rebuilds (scanned.fits.swap notNode _) (holdsLeaf store).allUnder
    (addressed_nil _) rehashed fun store' _ _ => holdsLeaf store'
  rwa [List.nil_append, ← update_single key leafValue, ← scanned.holds.leaf_entries,
    plug_update scanned.onPath] at rebuilt

section Sound

variable (sound : ctx.Sound)
include sound

/-- The scan found the leaf of another key: both leaves go under a new node where the
two keys part, with an extension above it when they part below the old leaf's place. -/
theorem Scanned.write_reparent {leafKey : κ} {leafValue : ν} {parents : Parents κ ν δ}
    {hole : List UInt8} (scanned : Scanned ctx store entries key ⟨.leaf leafKey leafValue, parents⟩ hole)
    (distinct : key ≠ leafKey) (value : ν) :
    ∃ elements, writeElements ctx key value (ctx.keyBytes key) (.leaf leafKey leafValue) parents =
      some elements ∧ Rebuilds ctx store elements (Function.update entries key (some value)) := by
  have spine : Spine ctx store parents hole entries := scanned.spine
  have holdsLeaf : Holds ctx store hole (.leaf leafKey leafValue) (underPath ctx hole entries) := scanned.holds
  have notNode : ∀ pointerBlock : PointerBlock δ, Trie.leaf leafKey leafValue ≠ .node pointerBlock := by simp
  obtain ⟨childIndex, pointerBlock, rest, rfl⟩ := spine.node_head scanned.fits notNode
  have pointed : pointerBlock.get childIndex = some (.leafPointer (ctx.trieHash (.leaf leafKey leafValue))) :=
    scanned.pointed
  have parentsPath : getParentsPath ((childIndex, .node pointerBlock) :: rest) = hole := scanned.parentsPath
  have notRoot : hole ≠ [] := spine.hole_ne_nil (List.cons_ne_nil _ _)
  -- the two keys part where their common prefix ends, at or below the hole
  obtain ⟨shared, sharedDef⟩ : ∃ shared, commonPrefix (ctx.keyBytes key) (ctx.keyBytes leafKey) = shared :=
    ⟨_, rfl⟩
  have onLeaf := holdsLeaf.leaf_onPath
  have sameLength := sound.length_eq_of_onPath notRoot scanned.onPath onLeaf
  have onShared : hole <+: shared := sharedDef ▸ prefix_commonPrefix scanned.onPath onLeaf
  have sharedOnKey : shared <+: ctx.keyBytes key := sharedDef ▸ commonPrefix_prefix_left _ _
  have sharedOnLeaf : shared <+: ctx.keyBytes leafKey := sharedDef ▸ commonPrefix_prefix_right _ _
  have shorter : shared.length < (ctx.keyBytes leafKey).length := by
    by_contra long
    have whole : shared = ctx.keyBytes leafKey :=
      sharedOnLeaf.eq_of_length (by have := sharedOnLeaf.length_le; omega)
    have same : ctx.keyBytes leafKey = ctx.keyBytes key := (whole ▸ sharedOnKey).eq_of_length sameLength.symm
    exact distinct (sound.keyBytes_injective same.symm)
  have shorterKey : shared.length < (ctx.keyBytes key).length := sameLength ▸ shorter
  have parting : (ctx.keyBytes key)[shared.length] ≠ (ctx.keyBytes leafKey)[shared.length] := by
    have := getElem_ne_of_commonPrefix (sharedDef ▸ shorterKey) (sharedDef ▸ shorter)
    simpa only [sharedDef] using this
  have onLeafIndex := List.prefix_append_getElem sharedOnLeaf shorter
  let newNode : PointerBlock δ := .fromIndexedPointers
    [((ctx.keyBytes leafKey)[shared.length], .leafPointer (ctx.trieHash (.leaf leafKey leafValue)))]
  have reparented : reparentLeaf ctx (ctx.keyBytes key) (ctx.keyBytes leafKey)
      ((childIndex, .node pointerBlock) :: rest) = some (.node newNode,
        if (shared.drop hole.length).isEmpty then (childIndex, .node pointerBlock) :: rest
        else (childIndex, .extension (shared.drop hole.length) (.nodePointer (ctx.trieHash (.node newNode)))) ::
          (childIndex, .node pointerBlock) :: rest) := by
    simp only [reparentLeaf, sharedDef, dif_pos shorter, pointed, parentsPath, if_pos onShared.length_le]
    split <;> rfl
  -- the extension above the new node is there exactly when the keys part below the hole
  have placed : (if (shared.drop hole.length).isEmpty then (childIndex, .node pointerBlock) :: rest
        else (childIndex, .extension (shared.drop hole.length) (.nodePointer (ctx.trieHash (.node newNode)))) ::
          (childIndex, .node pointerBlock) :: rest) = (childIndex, .node pointerBlock) :: rest ∧ shared = hole ∨
      ∃ index, shared.drop hole.length ≠ [] ∧
        (if (shared.drop hole.length).isEmpty then (childIndex, .node pointerBlock) :: rest
          else (childIndex, .extension (shared.drop hole.length) (.nodePointer (ctx.trieHash (.node newNode)))) ::
            (childIndex, .node pointerBlock) :: rest) =
        (index, .extension (shared.drop hole.length) (.nodePointer (ctx.trieHash (.node newNode)))) ::
          (childIndex, .node pointerBlock) :: rest := by
    by_cases atHole : shared.drop hole.length = []
    · have sharedEq : shared = hole :=
        (onShared.eq_of_length (by have := List.drop_eq_nil_iff.mp atHole; have := onShared.length_le; omega)).symm
      exact .inl ⟨by simp [atHole], sharedEq⟩
    · exact .inr ⟨childIndex, atHole, by simp [atHole]⟩
  obtain ⟨parents', elements, added, rehashed, rebuilt⟩ := spine.rebuilds_pair (fun _ => trivial) notRoot
    parentsPath onShared sharedOnKey shorterKey parting (addressed_nil _) (allUnder_single onLeafIndex leafValue)
    (fun store' keeps _ => ⟨keeps _ scanned.stored, .leaf onLeafIndex⟩) value placed
  simp only [Trie.pointerTo_leaf] at added
  refine ⟨elements, ?_, ?_⟩
  · simp only [writeElements, distinct, false_and, if_false, reparented, Option.bind_eq_bind,
      Option.bind_some, newNode, added, rehashed]
  rwa [List.nil_append, ← holdsLeaf.leaf_entries, plug_update scanned.onPath] at rebuilt

/-- The key leaves an extension inside its affix: a new node where it leaves, holding
the new leaf and what the rest of the affix leads to, with an extension for the shared
part of the affix above it and one for the rest below it, each only when nonempty. -/
theorem Scanned.write_split {affix : List UInt8} {pointer : Pointer δ} {parents : Parents κ ν δ}
    {hole : List UInt8} (scanned : Scanned ctx store entries key ⟨.extension affix pointer, parents⟩ hole)
    (value : ν) :
    ∃ elements, writeElements ctx key value (ctx.keyBytes key) (.extension affix pointer) parents =
      some elements ∧ Rebuilds ctx store elements (Function.update entries key (some value)) := by
  have spine : Spine ctx store parents hole entries := scanned.spine
  have holdsExtension : Holds ctx store hole (.extension affix pointer) (underPath ctx hole entries) :=
    scanned.holds
  have stops : ¬ hole ++ affix <+: ctx.keyBytes key := scanned.stops
  have parentsPath : getParentsPath parents = hole := scanned.parentsPath
  have notNode : ∀ pointerBlock : PointerBlock δ,
      (Trie.extension affix pointer : Trie κ ν δ) ≠ .node pointerBlock := by simp
  have fits := scanned.fits.swap notNode
  obtain ⟨target, rfl, notRoot, nonempty, storedTarget, holdsTarget⟩ := holdsExtension.extension_inv
  -- the key leaves the extension where its common prefix with the affix ends
  obtain ⟨shared, sharedDef⟩ : ∃ shared, commonPrefix (ctx.keyBytes key) (hole ++ affix) = shared := ⟨_, rfl⟩
  have onShared : hole <+: shared :=
    sharedDef ▸ prefix_commonPrefix scanned.onPath (List.prefix_append hole affix)
  have sharedOnKey : shared <+: ctx.keyBytes key := sharedDef ▸ commonPrefix_prefix_left _ _
  have sharedOnFull : shared <+: hole ++ affix := sharedDef ▸ commonPrefix_prefix_right _ _
  have shorter : shared.length < (hole ++ affix).length := by
    by_contra long
    have whole : shared = hole ++ affix :=
      sharedOnFull.eq_of_length (by have := sharedOnFull.length_le; omega)
    exact stops (whole ▸ sharedOnKey)
  -- a key below the extension fixes the length of every key below the hole
  obtain ⟨other, present⟩ := holdsTarget.nonempty (by simp [notRoot])
  have otherOnFull : hole ++ affix <+: ctx.keyBytes other := holdsTarget.allUnder other present
  have sameLength :=
    sound.length_eq_of_onPath notRoot scanned.onPath (List.IsPrefix.of_append_left otherOnFull)
  have shorterKey : shared.length < (ctx.keyBytes key).length := by
    have := otherOnFull.length_le
    omega
  have parting : (ctx.keyBytes key)[shared.length] ≠ (hole ++ affix)[shared.length] := by
    have := getElem_ne_of_commonPrefix (sharedDef ▸ shorterKey) (sharedDef ▸ shorter)
    simpa only [sharedDef] using this
  have onFullIndex := List.prefix_append_getElem sharedOnFull shorter
  have sharedLength : (shared.drop hole.length).length + hole.length = shared.length := by
    have := onShared.length_le
    simp only [List.length_drop]
    omega
  -- the rest of the affix, below the new node
  have restEq : (hole ++ affix).drop (shared.length + 1) =
      affix.drop ((shared.drop hole.length).length + 1) := by
    rw [List.drop_append, List.drop_eq_nil_of_le (by omega), List.nil_append]
    congr 1
    omega
  have childPath : shared ++ [(hole ++ affix)[shared.length]] ++
      affix.drop ((shared.drop hole.length).length + 1) = hole ++ affix := by
    rw [← restEq]
    have := List.prefix_iff_eq_append.mp onFullIndex
    simpa using this
  have underTarget : AllUnder ctx (shared ++ [(hole ++ affix)[shared.length]]) (underPath ctx hole entries) :=
    holdsTarget.allUnder.mono onFullIndex
  have inAffix : (shared.drop hole.length).length + 1 ≤ affix.length := by
    simp only [List.length_append] at shorter
    omega
  -- the shared part of the affix is empty exactly when the key leaves at the hole
  have sharedEq : shared.drop hole.length = [] → shared = hole := fun empty =>
    (onShared.eq_of_length (by have := List.drop_eq_nil_iff.mp empty; have := onShared.length_le; omega)).symm
  by_cases restEmpty : affix.drop ((shared.drop hole.length).length + 1) = []
  · -- the key leaves at the affix's last byte: the new node points to the old target
    have targetPath : shared ++ [(hole ++ affix)[shared.length]] = hole ++ affix := by
      rw [restEmpty, List.append_nil] at childPath
      exact childPath
    obtain ⟨split, splitted, newNodeEq, childEq, placed⟩ : ∃ split, splitExtension ctx (ctx.keyBytes key)
        (.extension affix (.nodePointer (ctx.trieHash (.node target)))) parents = some split ∧
        split.newNode = .node (.fromIndexedPointers
          [((hole ++ affix)[shared.length], .nodePointer (ctx.trieHash (.node target)))]) ∧
        split.maybeHashedChildExtension = none ∧
        (split.parents = parents ∧ shared = hole ∨ ∃ index, shared.drop hole.length ≠ [] ∧
          split.parents = (index, .extension (shared.drop hole.length)
            (.nodePointer (ctx.trieHash split.newNode))) :: parents) := by
      simp only [splitExtension, parentsPath, sharedDef, if_pos onShared.length_le, if_pos inAffix,
        dif_pos shorter, restEmpty, List.isEmpty_nil, ↓reduceIte]
      refine ⟨_, rfl, rfl, rfl, ?_⟩
      cases peaEq : shared.drop hole.length with
      | nil => exact .inl ⟨rfl, sharedEq peaEq⟩
      | cons first tail => exact .inr ⟨first, List.cons_ne_nil _ _, rfl⟩
    rw [newNodeEq] at placed
    obtain ⟨parents', elements, added, rehashed, rebuilt⟩ := spine.rebuilds_pair fits notRoot parentsPath
      onShared sharedOnKey shorterKey parting (addressed_nil _) underTarget
      (fun store' keeps _ => ⟨keeps _ storedTarget, by rw [targetPath]; exact holdsTarget.keep keeps⟩) value
      placed
    simp only [Trie.pointerTo_node] at added
    refine ⟨elements, ?_, ?_⟩
    · simp only [writeElements, splitted, newNodeEq, childEq, Option.bind_eq_bind, Option.bind_some, added,
        rehashed, Option.toList_none, List.nil_append]
    · rwa [List.nil_append, plug_update scanned.onPath] at rebuilt
  · -- an extension with the rest of the affix leads from the new node to the old target
    let childExtension : Trie κ ν δ := .extension (affix.drop ((shared.drop hole.length).length + 1))
      (.nodePointer (ctx.trieHash (.node target)))
    obtain ⟨split, splitted, newNodeEq, childEq, placed⟩ : ∃ split, splitExtension ctx (ctx.keyBytes key)
        (.extension affix (.nodePointer (ctx.trieHash (.node target)))) parents = some split ∧
        split.newNode = .node (.fromIndexedPointers
          [((hole ++ affix)[shared.length], childExtension.pointerTo (ctx.trieHash childExtension))]) ∧
        split.maybeHashedChildExtension = some (ctx.trieHash childExtension, childExtension) ∧
        (split.parents = parents ∧ shared = hole ∨ ∃ index, shared.drop hole.length ≠ [] ∧
          split.parents = (index, .extension (shared.drop hole.length)
            (.nodePointer (ctx.trieHash split.newNode))) :: parents) := by
      simp only [splitExtension, parentsPath, sharedDef, if_pos onShared.length_le, if_pos inAffix,
        dif_pos shorter, List.isEmpty_iff, restEmpty, ↓reduceIte]
      refine ⟨_, rfl, rfl, rfl, ?_⟩
      cases peaEq : shared.drop hole.length with
      | nil => exact .inl ⟨rfl, sharedEq peaEq⟩
      | cons first tail => exact .inr ⟨first, List.cons_ne_nil _ _, rfl⟩
    rw [newNodeEq] at placed
    have addressedChild : Addressed ctx.trieHash [(ctx.trieHash childExtension, childExtension)] :=
      (addressed_nil _).cons childExtension
    have holdsChild : ∀ store', Keeps ctx.trieHash store store' →
        Contains store' [(ctx.trieHash childExtension, childExtension)] →
        store' (ctx.trieHash childExtension) = some childExtension ∧
        Holds ctx store' (shared ++ [(hole ++ affix)[shared.length]]) childExtension (underPath ctx hole entries) :=
      fun store' keeps contains => ⟨contains _ (List.mem_singleton_self _),
        .extension (by simp) restEmpty (keeps _ storedTarget) (by rw [childPath]; exact holdsTarget.keep keeps)⟩
    obtain ⟨parents', elements, added, rehashed, rebuilt⟩ := spine.rebuilds_pair fits notRoot parentsPath
      onShared sharedOnKey shorterKey parting addressedChild underTarget holdsChild value placed
    refine ⟨_, ?_, by rwa [plug_update scanned.onPath] at rebuilt⟩
    simp only [writeElements, splitted, newNodeEq, childEq, Option.bind_eq_bind, Option.bind_some, added,
      rehashed, Option.toList_some, List.singleton_append]

/-- `writeElements` on the scan of a well-formed root: nothing when the key already
holds the value, and otherwise elements that rebuild the root with the new entry. -/
theorem Scanned.writeElements {scan : TrieScan κ ν δ} {hole : List UInt8}
    (scanned : Scanned ctx store entries key scan hole) (value : ν) :
    ∃ elements, TrieStore.writeElements ctx key value (ctx.keyBytes key) scan.tip scan.parents =
      some elements ∧ (elements = [] ∧ entries key = some value ∨
        Rebuilds ctx store elements (Function.update entries key (some value))) := by
  obtain ⟨tip, parents⟩ := scan
  cases tip with
  | leaf leafKey leafValue =>
    by_cases same : key = leafKey
    · subst same
      by_cases unchanged : value = leafValue
      · subst unchanged
        have entry := scanned.entry
        simp only [single, ↓reduceIte] at entry
        exact ⟨[], by simp [TrieStore.writeElements], .inl ⟨rfl, entry⟩⟩
      · obtain ⟨elements, written, rebuilt⟩ := scanned.write_update unchanged
        exact ⟨elements, written, .inr rebuilt⟩
    · obtain ⟨elements, written, rebuilt⟩ := scanned.write_reparent sound same value
      exact ⟨elements, written, .inr rebuilt⟩
  | node pointerBlock =>
    obtain ⟨elements, written, rebuilt⟩ := scanned.write_node value
    exact ⟨elements, written, .inr rebuilt⟩
  | extension affix pointer =>
    obtain ⟨elements, written, rebuilt⟩ := scanned.write_split sound value
    exact ⟨elements, written, .inr rebuilt⟩

/-- `write` on a well-formed root never fails, and returns a well-formed root holding the
new entry: a new root, or the old one with the store unchanged when the key already held
the value. Every node the store held is kept. -/
theorem RootHolds.write [DecidableEq δ] {root : δ} (rootHolds : RootHolds ctx store root entries)
    (key : κ) (value : ν) :
    ∃ result store' root', TrieStore.write ctx store root key value = some (result, store') ∧
      (result = .written root' ∨ result = .alreadyExists ∧ root' = root ∧ store' = store) ∧
      RootHolds ctx store' root' (Function.update entries key (some value)) ∧
      Keeps ctx.trieHash store store' := by
  obtain ⟨pointerBlock, scan, hole, stored, scanned, facts⟩ := rootHolds.scanRaw sound key
  obtain ⟨elements, written, outcome⟩ := facts.writeElements sound value
  rcases outcome with ⟨rfl, present⟩ | ⟨addressed, newRoot, rootTrie, last, rebuilt⟩
  · refine ⟨.alreadyExists, store, root, by simp [TrieStore.write, stored, scanned, written],
      .inr ⟨rfl, rfl, rfl⟩, ?_, Keeps.refl _ _⟩
    rwa [Function.update_eq_self_iff.mpr present.symm]
  · have keeps := keeps_putAll sound.hash_injective store addressed
    refine ⟨.written newRoot, putAll store elements, newRoot,
      by simp [TrieStore.write, stored, scanned, written, last], .inl rfl, ?_, keeps⟩
    exact rebuilt _ keeps (contains_putAll sound.hash_injective store addressed)

end Sound

end Cases

end TrieStore
