import CasperNode.TrieStore.Trie
import CasperNode.Lib.ContentStore

/-!
`trie_store::operations`: `read`, `write` and `delete` on a store that maps a
digest to the trie kept under it. A result `none` stands for a panic of the
source (an `assert!`, an `expect`, a slice out of range), or for a loop that
runs past its bound; `read` and the scans get one step more than the key has
bytes, which a well-formed trie never needs. Storage and serialization errors
are not modelled.
-/

namespace TrieStore

open ContentStore

variable {κ ν δ : Type}

inductive ReadResult (ν : Type) where
  | found (value : ν)
  | notFound
  | rootNotFound
  deriving DecidableEq

inductive WriteResult (δ : Type) where
  | written (root : δ)
  | alreadyExists
  | rootNotFound
  deriving DecidableEq

inductive DeleteResult (δ : Type) where
  | deleted (root : δ)
  | doesNotExist
  | rootNotFound
  deriving DecidableEq

section Read

variable [DecidableEq κ] (store : δ → Option (Trie κ ν δ)) (key : κ) (path : List UInt8)

/-- The loop of `read`: `current` is the trie reached after `depth` bytes of `path`. -/
def readFrom : Nat → Nat → Trie κ ν δ → Option (ReadResult ν)
  | 0, _, _ => none
  | _ + 1, _, .leaf leafKey leafValue =>
    -- keys may differ when a node points straight to a leaf
    some (if key = leafKey then .found leafValue else .notFound)
  | fuel + 1, depth, .node pointerBlock =>
    if h : depth < path.length then
      match pointerBlock.get path[depth] with
      | some pointer =>
        match store pointer.hash with
        | some next => readFrom fuel (depth + 1) next
        | none => some .notFound
      | none => some .notFound
    else none
  | fuel + 1, depth, .extension affix pointer =>
    if depth + affix.length ≤ path.length then
      if (path.drop depth).take affix.length = affix then
        match store pointer.hash with
        | some next => readFrom fuel (depth + affix.length) next
        | none => some .notFound
      else some .notFound
    else none

end Read

def read [DecidableEq κ] (ctx : TrieContext κ ν δ) (store : δ → Option (Trie κ ν δ)) (root : δ)
    (key : κ) : Option (ReadResult ν) :=
  match store root with
  | none => some .rootNotFound
  | some current =>
    readFrom store key (ctx.keyBytes key) ((ctx.keyBytes key).length + 1) 0 current

structure TrieScan (κ ν δ : Type) where
  tip : Trie κ ν δ
  parents : Parents κ ν δ

section Scan

variable (store : δ → Option (Trie κ ν δ)) (path : List UInt8)

/-- The loop of `scan_raw`: descends along `path` from `current`, pushing each node
and extension it passes, and stops at a leaf or where the path leaves the trie. -/
def scanRawFrom : Nat → Nat → Trie κ ν δ → Parents κ ν δ → Option (TrieScan κ ν δ)
  | 0, _, _, _ => none
  | _ + 1, _, .leaf key value, acc => some ⟨.leaf key value, acc⟩
  | fuel + 1, depth, .node pointerBlock, acc =>
    if h : depth < path.length then
      match pointerBlock.get path[depth] with
      | none => some ⟨.node pointerBlock, acc⟩
      | some pointer =>
        match store pointer.hash with
        | some next => scanRawFrom fuel (depth + 1) next ((path[depth], .node pointerBlock) :: acc)
        | none => none
    else none
  | fuel + 1, depth, .extension affix pointer, acc =>
    if depth + affix.length ≤ path.length then
      if (path.drop depth).take affix.length ≠ affix then some ⟨.extension affix pointer, acc⟩
      else
        match store pointer.hash with
        | some next =>
          if h : depth < path.length then
            scanRawFrom fuel (depth + affix.length) next ((path[depth], .extension affix pointer) :: acc)
          else none
        | none => none
    else none

def scanRaw (root : Trie κ ν δ) : Option (TrieScan κ ν δ) :=
  scanRawFrom store path (path.length + 1) 0 root []

end Scan

/-- Hashes the new `tip` and every parent above it, each parent now pointing to
the element below it; the last element is the new root. -/
def rehash (ctx : TrieContext κ ν δ) (tip : Trie κ ν δ) : Parents κ ν δ → Option (List (δ × Trie κ ν δ))
  | [] => some [(ctx.trieHash tip, tip)]
  | (index, parent) :: parents =>
    match parent with
    | .leaf .. => none
    | .node pointerBlock =>
      ((ctx.trieHash tip, tip) :: ·) <$>
        rehash ctx (.node (pointerBlock.set index (some (tip.pointerTo (ctx.trieHash tip))))) parents
    | .extension affix pointer =>
      ((ctx.trieHash tip, tip) :: ·) <$>
        rehash ctx (.extension affix (pointer.update (ctx.trieHash tip))) parents

theorem rehash_node_eq_some {ctx : TrieContext κ ν δ} {tip : Trie κ ν δ} {index : UInt8}
    {pointerBlock : PointerBlock δ} {parents : Parents κ ν δ} {elements : List (δ × Trie κ ν δ)} :
    rehash ctx tip ((index, .node pointerBlock) :: parents) = some elements ↔
      ∃ rest, rehash ctx (.node (pointerBlock.set index (some (tip.pointerTo (ctx.trieHash tip))))) parents =
        some rest ∧ elements = (ctx.trieHash tip, tip) :: rest := by
  simp only [rehash, Option.map_eq_map, Option.map_eq_some_iff]
  exact exists_congr fun rest => and_congr_right fun _ => eq_comm

theorem rehash_extension_eq_some {ctx : TrieContext κ ν δ} {tip : Trie κ ν δ} {index : UInt8}
    {affix : List UInt8} {pointer : Pointer δ} {parents : Parents κ ν δ} {elements : List (δ × Trie κ ν δ)} :
    rehash ctx tip ((index, .extension affix pointer) :: parents) = some elements ↔
      ∃ rest, rehash ctx (.extension affix (pointer.update (ctx.trieHash tip))) parents = some rest ∧
        elements = (ctx.trieHash tip, tip) :: rest := by
  simp only [rehash, Option.map_eq_map, Option.map_eq_some_iff]
  exact exists_congr fun rest => and_congr_right fun _ => eq_comm

def commonPrefix {α : Type} [DecidableEq α] : List α → List α → List α
  | l :: ls, r :: rs => if l = r then l :: commonPrefix ls rs else []
  | _, _ => []

section CommonPrefix

variable {α : Type} [DecidableEq α]

attribute [local simp] commonPrefix

theorem commonPrefix_prefix_left : ∀ (left right : List α), commonPrefix left right <+: left
  | l :: ls, r :: rs => by
    by_cases same : l = r
    · simpa [same] using commonPrefix_prefix_left ls rs
    · simp [same]
  | [], _ => by simp
  | _ :: _, [] => by simp

theorem commonPrefix_prefix_right : ∀ (left right : List α), commonPrefix left right <+: right
  | l :: ls, r :: rs => by
    by_cases same : l = r
    · subst same
      simpa using commonPrefix_prefix_right ls rs
    · simp [same]
  | [], _ => by simp
  | _ :: _, [] => by simp

theorem prefix_commonPrefix {path left right : List α} (onLeft : path <+: left)
    (onRight : path <+: right) : path <+: commonPrefix left right := by
  induction path generalizing left right with
  | nil => exact List.nil_prefix
  | cons p path ih =>
    cases left with
    | nil => exact absurd onLeft (by simp)
    | cons l ls =>
      cases right with
      | nil => exact absurd onRight (by simp)
      | cons r rs =>
        obtain ⟨rfl, onRest⟩ := List.cons_prefix_cons.mp onLeft
        obtain ⟨rfl, onOtherRest⟩ := List.cons_prefix_cons.mp onRight
        simpa using ih onRest onOtherRest

theorem getElem_ne_of_commonPrefix {left right : List α}
    (inLeft : (commonPrefix left right).length < left.length)
    (inRight : (commonPrefix left right).length < right.length) :
    left[(commonPrefix left right).length] ≠ right[(commonPrefix left right).length] := by
  induction left generalizing right with
  | nil => simp at inLeft
  | cons l ls ih =>
    cases right with
    | nil => simp at inRight
    | cons r rs =>
      by_cases same : l = r
      · subst same
        have shared : commonPrefix (l :: ls) (l :: rs) = l :: commonPrefix ls rs := by
          simp
        simp only [shared, List.length_cons, List.getElem_cons_succ] at inLeft inRight ⊢
        exact ih (by omega) (by omega)
      · have empty : commonPrefix (l :: ls) (r :: rs) = [] := by simp [same]
        simp only [empty, List.length_nil, List.getElem_cons_zero]
        exact same

theorem commonPrefix_eq_right {left right : List α} (onLeft : right <+: left) :
    commonPrefix left right = right :=
  List.IsPrefix.eq_of_length (commonPrefix_prefix_right left right)
    (Nat.le_antisymm (commonPrefix_prefix_right left right).length_le
      (prefix_commonPrefix onLeft (List.prefix_refl right)).length_le)

end CommonPrefix

/-- The key bytes leading to the position below the deepest parent. -/
def getParentsPath : Parents κ ν δ → List UInt8
  | [] => []
  | (index, element) :: parents =>
    getParentsPath parents ++
      match element with
      | .extension affix _ => affix
      | _ => [index]

@[simp] theorem getParentsPath_nil : getParentsPath ([] : Parents κ ν δ) = [] := rfl

@[simp] theorem getParentsPath_node (index : UInt8) (pointerBlock : PointerBlock δ)
    (parents : Parents κ ν δ) :
    getParentsPath ((index, .node pointerBlock) :: parents) = getParentsPath parents ++ [index] := rfl

@[simp] theorem getParentsPath_extension (index : UInt8) (affix : List UInt8) (pointer : Pointer δ)
    (parents : Parents κ ν δ) :
    getParentsPath ((index, .extension affix pointer) :: parents) = getParentsPath parents ++ affix := rfl

def addNodeToParents (pathToLeaf : List UInt8) (newParentNode : Trie κ ν δ) (parents : Parents κ ν δ) :
    Option (Parents κ ν δ) :=
  match newParentNode with
  | .node _ =>
    let pathToNode := getParentsPath parents
    if commonPrefix pathToLeaf pathToNode = pathToNode then
      if h : pathToNode.length < pathToLeaf.length then
        some ((pathToLeaf[pathToNode.length], newParentNode) :: parents)
      else none
    else none
  | _ => none

/-- Puts the existing leaf under a new node at the end of the shared path, with an
extension above that node when the shared path goes past the leaf's parent. -/
def reparentLeaf (ctx : TrieContext κ ν δ) (newLeafPath existingLeafPath : List UInt8) :
    Parents κ ν δ → Option (Trie κ ν δ × Parents κ ν δ)
  | [] => none
  | (childIndex, parent) :: parents =>
    match parent with
    | .node pointerBlock =>
      let sharedPath := commonPrefix newLeafPath existingLeafPath
      if h : sharedPath.length < existingLeafPath.length then
        match pointerBlock.get childIndex with
        | none => none
        | some existingLeafPointer =>
          let newNode : Trie κ ν δ :=
            .node (.fromIndexedPointers [(existingLeafPath[sharedPath.length], existingLeafPointer)])
          let parents := (childIndex, Trie.node pointerBlock) :: parents
          let parentsPath := getParentsPath parents
          if parentsPath.length ≤ sharedPath.length then
            let affix := sharedPath.drop parentsPath.length
            if affix.isEmpty then some (newNode, parents)
            else
              some (newNode,
                (childIndex, .extension affix (.nodePointer (ctx.trieHash newNode))) :: parents)
          else none
      else none
    | _ => none

structure SplitResult (κ ν δ : Type) where
  newNode : Trie κ ν δ
  parents : Parents κ ν δ
  maybeHashedChildExtension : Option (δ × Trie κ ν δ)

/-- Splits the extension the new leaf's path leaves: a parent extension for the
shared part, a new node where the paths part, and a child extension for the
rest of the affix. -/
def splitExtension (ctx : TrieContext κ ν δ) (newLeafPath : List UInt8) (existingExtension : Trie κ ν δ)
    (parents : Parents κ ν δ) : Option (SplitResult κ ν δ) :=
  match existingExtension with
  | .extension affix pointer =>
    let parentsPath := getParentsPath parents
    let existingExtensionPath := parentsPath ++ affix
    let sharedPath := commonPrefix newLeafPath existingExtensionPath
    if parentsPath.length ≤ sharedPath.length then
      let parentExtensionAffix := sharedPath.drop parentsPath.length
      if parentExtensionAffix.length + 1 ≤ affix.length then
        let childExtensionAffix := affix.drop (parentExtensionAffix.length + 1)
        let maybeHashedChildExtension : Option (δ × Trie κ ν δ) :=
          if childExtensionAffix.isEmpty then none
          else
            let childExtension : Trie κ ν δ := .extension childExtensionAffix pointer
            some (ctx.trieHash childExtension, childExtension)
        if h : sharedPath.length < existingExtensionPath.length then
          let newPointer := match maybeHashedChildExtension with
            | some (hash, _) => .nodePointer hash
            | none => pointer
          let newNode : Trie κ ν δ :=
            .node (.fromIndexedPointers [(existingExtensionPath[sharedPath.length], newPointer)])
          let parents := match parentExtensionAffix with
            | [] => parents
            | first :: _ =>
              (first, .extension parentExtensionAffix (.nodePointer (ctx.trieHash newNode))) :: parents
          some ⟨newNode, parents, maybeHashedChildExtension⟩
        else none
      else none
    else none
  | _ => none

/-- The elements `write` stores for the new leaf, given the scan of its key. -/
def writeElements [DecidableEq κ] [DecidableEq ν] (ctx : TrieContext κ ν δ) (key : κ) (value : ν)
    (path : List UInt8) (tip : Trie κ ν δ) (parents : Parents κ ν δ) :
    Option (List (δ × Trie κ ν δ)) :=
  let newLeaf : Trie κ ν δ := .leaf key value
  match tip with
  | .leaf leafKey leafValue =>
    if key = leafKey ∧ value = leafValue then some []
    else if key = leafKey then rehash ctx newLeaf parents
    else do
      let (newNode, parents) ← reparentLeaf ctx path (ctx.keyBytes leafKey) parents
      let parents ← addNodeToParents path newNode parents
      rehash ctx newLeaf parents
  | .node pointerBlock => do
    let parents ← addNodeToParents path (.node pointerBlock) parents
    rehash ctx newLeaf parents
  | .extension affix pointer => do
    let split ← splitExtension ctx path (.extension affix pointer) parents
    let parents ← addNodeToParents path split.newNode split.parents
    let elements ← rehash ctx newLeaf parents
    some (split.maybeHashedChildExtension.toList ++ elements)

variable [DecidableEq δ]

def write [DecidableEq κ] [DecidableEq ν] (ctx : TrieContext κ ν δ) (store : δ → Option (Trie κ ν δ))
    (root : δ) (key : κ) (value : ν) : Option (WriteResult δ × (δ → Option (Trie κ ν δ))) :=
  match store root with
  | none => some (.rootNotFound, store)
  | some currentRoot => do
    let path := ctx.keyBytes key
    let scan ← scanRaw store path currentRoot
    let newElements ← writeElements ctx key value path scan.tip scan.parents
    match newElements.getLast? with
    | none => some (.alreadyExists, store)
    | some (rootHash, _) => some (.written rootHash, putAll store newElements)

/-- The loop of `delete` over the parents of the deleted leaf. `newElements` is the
`Vec` of new elements used as a stack: the last one pushed comes first. -/
def deleteLoop (ctx : TrieContext κ ν δ) (store : δ → Option (Trie κ ν δ)) :
    List (δ × Trie κ ν δ) → Parents κ ν δ → Option (List (δ × Trie κ ν δ))
  | newElements, [] => some newElements
  | newElements, (idx, parent) :: parents =>
    match newElements, parent with
    | _, .leaf .. => none
    | [], .extension .. => none
    | (_, .leaf ..) :: _, _ => none
    -- the parent pointed to the deleted leaf, which had two or more siblings
    | [], .node pointerBlock =>
      if 2 < pointerBlock.childCount then
        let trieNode : Trie κ ν δ := .node (pointerBlock.set idx none)
        deleteLoop ctx store [(ctx.trieHash trieNode, trieNode)] parents
      else
        match pointerBlock.asIndexedPointers.find? (fun entry => idx != entry.1) with
        | none =>
          -- no sibling: the parent is the root, which becomes empty
          let trieNode : Trie κ ν δ := .node .new
          some [(ctx.trieHash trieNode, trieNode)]
        | some (siblingIdx, siblingPointer) =>
          -- the source matches the sibling pointer together with `parents.pop()`
          match siblingPointer with
          | .leafPointer _ =>
            match parents with
            | (_, .leaf ..) :: _ => none
            | [] =>
              let trieNode : Trie κ ν δ := .node (pointerBlock.set idx none)
              some [(ctx.trieHash trieNode, trieNode)]
            | (grandparentIdx, .node grandparentBlock) :: parents =>
              -- the single leaf sibling is reseated into the grandparent
              let trieNode : Trie κ ν δ :=
                .node (grandparentBlock.set grandparentIdx (some siblingPointer))
              deleteLoop ctx store [(ctx.trieHash trieNode, trieNode)] parents
            | (_, .extension ..) :: parents =>
              match parents with
              | [] => none
              | (_, .leaf ..) :: _ => none
              | (_, .extension ..) :: _ => none
              | (greatGrandparentIdx, .node greatGrandparentBlock) :: parents =>
                -- ... or into the great-grandparent, in the grandparent extension's place
                let trieNode : Trie κ ν δ :=
                  .node (greatGrandparentBlock.set greatGrandparentIdx (some siblingPointer))
                deleteLoop ctx store [(ctx.trieHash trieNode, trieNode)] parents
          | .nodePointer siblingTrieKey =>
            match parents.head? with
            | some (_, .leaf ..) => none
            | none =>
              let trieNode : Trie κ ν δ := .node (pointerBlock.set idx none)
              some [(ctx.trieHash trieNode, trieNode)]
            | some _ =>
              -- the parent becomes an extension to the single sibling; the
              -- grandparent is pushed back and stays on the stack
              match store siblingTrieKey with
              | none => none
              | some (.leaf ..) => none
              | some (.node _) =>
                let newExtension : Trie κ ν δ := .extension [siblingIdx] siblingPointer
                deleteLoop ctx store [(ctx.trieHash newExtension, newExtension)] parents
              | some (.extension extensionAffix pointer) =>
                let newExtension : Trie κ ν δ := .extension (siblingIdx :: extensionAffix) pointer
                deleteLoop ctx store [(ctx.trieHash newExtension, newExtension)] parents
    | (trieKey, element) :: rest, .node pointerBlock =>
      let trieNode : Trie κ ν δ := .node (pointerBlock.set idx (some (.nodePointer trieKey)))
      deleteLoop ctx store ((ctx.trieHash trieNode, trieNode) :: (trieKey, element) :: rest) parents
    | (_, .extension childAffix pointer) :: rest, .extension affix _ =>
      -- the only in-place update: the parent's affix is prepended to the child's
      let newExtension : Trie κ ν δ := .extension (affix ++ childAffix) pointer
      deleteLoop ctx store ((ctx.trieHash newExtension, newExtension) :: rest) parents
    | (trieKey, .node pointerBlock) :: rest, .extension affix _ =>
      let trieExtension : Trie κ ν δ := .extension affix (.nodePointer trieKey)
      deleteLoop ctx store
        ((ctx.trieHash trieExtension, trieExtension) :: (trieKey, .node pointerBlock) :: rest) parents

omit [DecidableEq δ] in
theorem deleteLoop_nil_node_of_many {ctx : TrieContext κ ν δ} {store : δ → Option (Trie κ ν δ)} {index : UInt8}
    {pointerBlock : PointerBlock δ} {parents : Parents κ ν δ} (many : 2 < pointerBlock.childCount) :
    deleteLoop ctx store [] ((index, .node pointerBlock) :: parents) =
      deleteLoop ctx store [(ctx.trieHash (.node (pointerBlock.set index none)), .node (pointerBlock.set index none))]
        parents := by
  simp only [deleteLoop, if_pos many]

def delete [DecidableEq κ] (ctx : TrieContext κ ν δ) (store : δ → Option (Trie κ ν δ)) (root : δ)
    (keyToDelete : κ) : Option (DeleteResult δ × (δ → Option (Trie κ ν δ))) :=
  match store root with
  | none => some (.rootNotFound, store)
  | some rootTrie => do
    let scan ← scanRaw store (ctx.keyBytes keyToDelete) rootTrie
    match scan.tip with
    | .leaf key _ =>
      if key = keyToDelete then do
        let newElements ← deleteLoop ctx store [] scan.parents
        let newRoot := match newElements with
          | (hash, _) :: _ => hash
          | [] => root
        some (.deleted newRoot, putAll store newElements.reverse)
      else some (.doesNotExist, store)
    | _ => some (.doesNotExist, store)

end TrieStore
