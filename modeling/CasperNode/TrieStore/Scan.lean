import CasperNode.TrieStore.Holds

/-!
What `scan_raw` returns on a well-formed root. The parents it collects form a
`Spine`: the chain of stored nodes and extensions from the root down to the
position of the tip, with every sibling of that chain holding what the root
holds beside it. `write` and `delete` rebuild the trie along this chain.
-/

namespace TrieStore

open ContentStore

variable {κ ν δ : Type}

/-- What may take the position below `parents`: at the root and below an extension
only a node. -/
def Fits : Parents κ ν δ → Trie κ ν δ → Prop
  | [], trie => ∃ pointerBlock, trie = .node pointerBlock
  | (_, .extension ..) :: _, trie => ∃ pointerBlock, trie = .node pointerBlock
  | _ :: _, _ => True

theorem fits_node (parents : Parents κ ν δ) (pointerBlock : PointerBlock δ) :
    Fits parents (.node pointerBlock) := by
  match parents with
  | [] => exact ⟨pointerBlock, rfl⟩
  | (_, .extension ..) :: _ => exact ⟨pointerBlock, rfl⟩
  | (_, .leaf ..) :: _ => trivial
  | (_, .node _) :: _ => trivial

/-- The deepest parent's pointer to the position below it. -/
def PointsTo : Parents κ ν δ → Pointer δ → Prop
  | (index, .node pointerBlock) :: _, pointer => pointerBlock.get index = some pointer
  | (_, .extension _ extensionPointer) :: _, pointer => extensionPointer = pointer
  | _, _ => True

variable [DecidableEq κ] {ctx : TrieContext κ ν δ} {store : δ → Option (Trie κ ν δ)}

variable (ctx store) in
/-- A node on a spine at `path`, whose child at `index` leads further down: every other
child holds what `entries` holds below it. -/
structure SpineNode (path : List UInt8) (index : UInt8) (pointerBlock : PointerBlock δ)
    (entries : κ → Option ν) : Prop where
  present : (pointerBlock.get index).isSome
  linked : ∀ other pointer, other ≠ index → pointerBlock.get other = some pointer →
    ∃ trie, store pointer.hash = some trie ∧ pointer = trie.pointerTo (ctx.trieHash trie)
  sibling : ∀ other pointer trie, other ≠ index → pointerBlock.get other = some pointer →
    store pointer.hash = some trie →
    Holds ctx store (path ++ [other]) trie (underPath ctx (path ++ [other]) entries)
  vacant : ∀ other key, pointerBlock.get other = none → path ++ [other] <+: ctx.keyBytes key →
    entries key = none
  below : ∀ key, path <+: ctx.keyBytes key → entries key ≠ none →
    path.length < (ctx.keyBytes key).length
  branching : path ≠ [] → 2 ≤ pointerBlock.childCount

variable (ctx store) in
/-- `Spine ctx store parents hole entries`: `parents` leads from the root, whose trie
holds `entries`, down to the position at `hole`; outside that position every node
holds what `entries` says. An extension's parent is a node. -/
inductive Spine : Parents κ ν δ → List UInt8 → (κ → Option ν) → Prop
  | root {entries : κ → Option ν} : Spine [] [] entries
  | node {parents : Parents κ ν δ} {path : List UInt8} {entries : κ → Option ν} {index : UInt8}
      {pointerBlock : PointerBlock δ}
      (above : Spine parents path entries) (node : SpineNode ctx store path index pointerBlock entries) :
      Spine ((index, .node pointerBlock) :: parents) (path ++ [index]) entries
  | extension {parents : Parents κ ν δ} {path affix : List UInt8} {entries : κ → Option ν}
      {index parentIndex : UInt8} {hash : δ} {parentBlock : PointerBlock δ}
      (above : Spine ((parentIndex, .node parentBlock) :: parents) path entries)
      (nonempty : affix ≠ [])
      (within : ∀ key, path <+: ctx.keyBytes key → entries key ≠ none →
        path ++ affix <+: ctx.keyBytes key) :
      Spine ((index, .extension affix (.nodePointer hash)) :: (parentIndex, .node parentBlock) :: parents)
        (path ++ affix) entries

theorem SpineNode.keep {store' : δ → Option (Trie κ ν δ)} (keeps : Keeps ctx.trieHash store store')
    {path : List UInt8} {index : UInt8} {pointerBlock : PointerBlock δ} {entries : κ → Option ν}
    (node : SpineNode ctx store path index pointerBlock entries) :
    SpineNode ctx store' path index pointerBlock entries := by
  refine ⟨node.present, fun other pointer distinct found => ?_,
    fun other pointer trie distinct found stored' => ?_, node.vacant, node.below, node.branching⟩
  · obtain ⟨trie, stored, tagged⟩ := node.linked other pointer distinct found
    have addressed : pointer.hash = ctx.trieHash trie := by rw [tagged, Trie.hash_pointerTo]
    rw [addressed] at stored ⊢
    exact ⟨trie, keeps trie stored, tagged⟩
  · obtain ⟨trie', stored, tagged⟩ := node.linked other pointer distinct found
    have addressed : pointer.hash = ctx.trieHash trie' := by rw [tagged, Trie.hash_pointerTo]
    rw [addressed] at stored stored'
    rw [keeps trie' stored] at stored'
    obtain rfl := Option.some.inj stored'
    exact (node.sibling other pointer trie' distinct found (addressed ▸ stored)).keep keeps

theorem Spine.keep {store' : δ → Option (Trie κ ν δ)} (keeps : Keeps ctx.trieHash store store')
    {parents : Parents κ ν δ} {hole : List UInt8} {entries : κ → Option ν}
    (spine : Spine ctx store parents hole entries) : Spine ctx store' parents hole entries := by
  induction spine with
  | root => exact .root
  | node _ node ih => exact .node ih (node.keep keeps)
  | extension _ nonempty within ih => exact .extension ih nonempty within

theorem Spine.node_inv {parents : Parents κ ν δ} {index : UInt8} {pointerBlock : PointerBlock δ}
    {hole : List UInt8} {entries : κ → Option ν}
    (spine : Spine ctx store ((index, .node pointerBlock) :: parents) hole entries) :
    ∃ path, hole = path ++ [index] ∧ Spine ctx store parents path entries ∧
      SpineNode ctx store path index pointerBlock entries := by
  cases spine with
  | node above node => exact ⟨_, rfl, above, node⟩

theorem Spine.extension_inv {parents : Parents κ ν δ} {index : UInt8} {affix : List UInt8}
    {pointer : Pointer δ} {hole : List UInt8} {entries : κ → Option ν}
    (spine : Spine ctx store ((index, .extension affix pointer) :: parents) hole entries) :
    ∃ path parentIndex parentBlock rest hash, hole = path ++ affix ∧
      parents = (parentIndex, .node parentBlock) :: rest ∧ pointer = .nodePointer hash ∧
      Spine ctx store parents path entries ∧ affix ≠ [] ∧
      ∀ key, path <+: ctx.keyBytes key → entries key ≠ none → path ++ affix <+: ctx.keyBytes key := by
  cases spine with
  | extension above nonempty within => exact ⟨_, _, _, _, _, rfl, rfl, rfl, above, nonempty, within⟩

theorem Spine.hole_ne_nil {parents : Parents κ ν δ} {hole : List UInt8} {entries : κ → Option ν}
    (spine : Spine ctx store parents hole entries) (nonempty : parents ≠ []) : hole ≠ [] := by
  cases spine with
  | root => exact absurd rfl nonempty
  | node => simp
  | extension _ affixNonempty => simp [affixNonempty]

theorem Spine.parents_eq_nil {parents : Parents κ ν δ} {entries : κ → Option ν}
    (spine : Spine ctx store parents [] entries) : parents = [] := by
  by_contra nonempty
  exact spine.hole_ne_nil nonempty rfl

variable (ctx) in
/-- Why the scan for `key` stopped at `tip`, found at `hole`. -/
def Stops (key : κ) (hole : List UInt8) : Trie κ ν δ → Prop
  | .leaf .. => True
  | .node pointerBlock => ∃ index, hole ++ [index] <+: ctx.keyBytes key ∧ pointerBlock.get index = none
  | .extension affix _ => ¬ hole ++ affix <+: ctx.keyBytes key

variable (ctx store) in
/-- The scan for `key` in a root holding `entries` found `tip` at `hole` below `parents`. -/
structure Scanned (entries : κ → Option ν) (key : κ) (scan : TrieScan κ ν δ) (hole : List UInt8) :
    Prop where
  spine : Spine ctx store scan.parents hole entries
  fits : Fits scan.parents scan.tip
  holds : Holds ctx store hole scan.tip (underPath ctx hole entries)
  onPath : hole <+: ctx.keyBytes key
  parentsPath : getParentsPath scan.parents = hole
  stops : Stops ctx key hole scan.tip
  stored : store (ctx.trieHash scan.tip) = some scan.tip
  pointed : PointsTo scan.parents (scan.tip.pointerTo (ctx.trieHash scan.tip))

theorem Scanned.entry {entries : κ → Option ν} {key : κ} {scan : TrieScan κ ν δ} {hole : List UInt8}
    (scanned : Scanned ctx store entries key scan hole) :
    entries key = match scan.tip with
      | .leaf leafKey value => single leafKey value key
      | _ => none := by
  have tipEntry : entries key = underPath ctx hole entries key := (underPath_of_onPath scanned.onPath).symm
  obtain ⟨tip, parents⟩ := scan
  have holds := scanned.holds
  have stops := scanned.stops
  simp only at holds stops ⊢
  rw [tipEntry]
  cases tip with
  | leaf leafKey value => rw [holds.leaf_entries]
  | node pointerBlock =>
    obtain ⟨index, onIndex, absent⟩ := stops
    exact holds.vacant absent onIndex
  | extension affix pointer =>
    by_contra present
    exact stops (holds.allUnder_affix key present)

section Sound

variable (sound : ctx.Sound)
include sound

/-- The loop of `scan_raw`, by induction on the trie below the current position: each
step moves the position one child down and pushes the node or extension it leaves. -/
theorem Holds.scanRawFrom {hole : List UInt8} {current : Trie κ ν δ} {inner : κ → Option ν}
    (holds : Holds ctx store hole current inner) {entries : κ → Option ν}
    (restricted : inner = underPath ctx hole entries) {key : κ} {acc : Parents κ ν δ}
    (spine : Spine ctx store acc hole entries) (fits : Fits acc current)
    (onPath : hole <+: ctx.keyBytes key) (parentsPath : getParentsPath acc = hole)
    (stored : store (ctx.trieHash current) = some current)
    (pointed : PointsTo acc (current.pointerTo (ctx.trieHash current))) (fuel : Nat)
    (enough : (ctx.keyBytes key).length < fuel + hole.length) :
    ∃ scan hole', scanRawFrom store (ctx.keyBytes key) fuel hole.length current acc = some scan ∧
      Scanned ctx store entries key scan hole' := by
  induction holds generalizing fuel acc with
  | leaf onLeaf =>
    obtain ⟨fuel, rfl⟩ : ∃ rest, fuel = rest + 1 :=
      Nat.exists_eq_add_one.mpr (by have := onPath.length_le; omega)
    exact ⟨_, _, rfl, spine, fits, restricted ▸ .leaf onLeaf, onPath, parentsPath, trivial, stored,
      pointed⟩
  | @node path pointerBlock inner linked child vacant below branching ih =>
    have holds := Holds.node linked child vacant below branching
    have shorter := holds.length_lt_of_node sound onPath
    obtain ⟨fuel, rfl⟩ : ∃ rest, fuel = rest + 1 := Nat.exists_eq_add_one.mpr (by omega)
    have next := List.prefix_append_getElem onPath shorter
    simp only [TrieStore.scanRawFrom, dif_pos shorter]
    cases found : pointerBlock.get (ctx.keyBytes key)[path.length] with
    | none =>
      subst restricted
      exact ⟨_, _, rfl, spine, fits, holds, onPath, parentsPath, ⟨_, next, found⟩, stored, pointed⟩
    | some pointer =>
      obtain ⟨trie, storedChild, tagged⟩ := linked _ pointer found
      simp only [storedChild]
      have addressed : pointer.hash = ctx.trieHash trie := by rw [tagged, Trie.hash_pointerTo]
      subst restricted
      -- the node joins the spine, its other children becoming siblings
      have spine' : Spine ctx store (((ctx.keyBytes key)[path.length], .node pointerBlock) :: acc)
          (path ++ [(ctx.keyBytes key)[path.length]]) entries := by
        refine .node spine ⟨by simp [found], fun other pointer _ found => linked other pointer found,
          fun other pointer trie _ found stored => ?_, fun other key absent onOther => ?_,
          fun key onKey present => ?_, branching⟩
        · rw [← underPath_underPath (List.prefix_append path [other])]
          exact child other pointer trie found stored
        · have := vacant other key absent onOther
          rwa [underPath_of_onPath (List.IsPrefix.of_append_left onOther)] at this
        · exact (below key (by rwa [underPath_of_onPath onKey])).2
      have deeper := ih _ pointer trie found storedChild (underPath_underPath (List.prefix_append _ _) _)
        spine' trivial next (by simp [parentsPath]) (addressed ▸ storedChild) (by rw [← tagged]; exact found)
        fuel (by simp; omega)
      simpa using deeper
  | @extension path affix pointerBlock inner notRoot nonempty linked target ih =>
    have holds := Holds.extension notRoot nonempty linked target
    have shorter := holds.length_lt_of_extension sound onPath
    obtain ⟨fuel, rfl⟩ : ∃ rest, fuel = rest + 1 := Nat.exists_eq_add_one.mpr (by omega)
    have fits' : path.length + affix.length ≤ (ctx.keyBytes key).length := by omega
    have longAffix : 0 < affix.length := List.length_pos_iff.mpr nonempty
    simp only [TrieStore.scanRawFrom, if_pos fits', ne_eq, List.drop_take_eq_iff onPath]
    by_cases onAffix : path ++ affix <+: ctx.keyBytes key
    · have inside : path.length < (ctx.keyBytes key).length := by omega
      simp only [onAffix, not_true_eq_false, if_false, Pointer.hash_nodePointer, linked, dif_pos inside]
      subst restricted
      -- an extension's parent is a node, so the extension joins the spine
      obtain ⟨parentIndex, parentBlock, acc, rfl⟩ :
          ∃ parentIndex parentBlock rest, acc = (parentIndex, .node parentBlock) :: rest := by
        match acc, fits with
        | (parentIndex, .node parentBlock) :: rest, _ => exact ⟨parentIndex, parentBlock, rest, rfl⟩
        | [], ⟨_, impossible⟩ => cases impossible
        | (_, .extension ..) :: _, ⟨_, impossible⟩ => cases impossible
      have spine' : Spine ctx store (((ctx.keyBytes key)[path.length],
            .extension affix (.nodePointer (ctx.trieHash (.node pointerBlock)))) ::
            (parentIndex, .node parentBlock) :: acc) (path ++ affix) entries :=
        .extension spine nonempty fun key onKey present =>
          target.allUnder key (by rwa [underPath_of_onPath onKey])
      have restricted : underPath ctx path entries = underPath ctx (path ++ affix) entries := by
        rw [← underPath_underPath (List.prefix_append path affix),
          underPath_eq_of_allUnder target.allUnder]
      have deeper := ih restricted spine' (fits_node _ _) onAffix (by simp [parentsPath]) linked rfl
        fuel (by simp; omega)
      simpa using deeper
    · simp only [onAffix, not_false_eq_true, if_true]
      subst restricted
      exact ⟨_, _, rfl, spine, fits, holds, onPath, parentsPath, onAffix, stored, pointed⟩

theorem RootHolds.scanRaw {root : δ} {entries : κ → Option ν}
    (rootHolds : RootHolds ctx store root entries) (key : κ) :
    ∃ pointerBlock scan hole, store root = some (.node pointerBlock) ∧
      scanRaw store (ctx.keyBytes key) (.node pointerBlock) = some scan ∧
      Scanned ctx store entries key scan hole := by
  obtain ⟨pointerBlock, addressed, stored, holds⟩ := rootHolds
  have whole : entries = underPath ctx [] entries := by
    funext key
    simp
  have atRoot : [] <+: ctx.keyBytes key := List.nil_prefix
  obtain ⟨scan, hole, scanned, facts⟩ :=
    holds.scanRawFrom sound whole .root (fits_node _ _) atRoot rfl
      (addressed ▸ stored) trivial ((ctx.keyBytes key).length + 1) (by simp)
  exact ⟨pointerBlock, scan, hole, stored, scanned, facts⟩

end Sound

end TrieStore
