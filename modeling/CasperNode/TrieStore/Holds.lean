import CasperNode.TrieStore.Operations
import CasperNode.Lib.ListPrefix

/-!
The structure invariant of the trie, and what `read` returns under it.

`Holds ctx store path trie entries` says that `trie`, reached after the key
bytes `path`, holds exactly `entries`. A leaf holds its own entry. A node
holds under each index what the child stored under that pointer holds; each
pointer names its child's digest and is tagged with the child's kind, and a
node below the root has two children at least. An extension, never at the
root, holds what the node it points to holds below its nonempty affix.
`RootHolds` adds that the root is a node kept under its own digest.

`TrieContext.Sound` gathers what the operations rely on: digests do not
collide, and key encodings are injective, nonempty and of a length fixed by
their first byte (as for `Key`, whose tag fixes the length).
-/

namespace TrieStore

open ContentStore

variable {κ ν δ : Type}

structure TrieContext.Sound (ctx : TrieContext κ ν δ) : Prop where
  hash_injective : Function.Injective ctx.trieHash
  keyBytes_injective : Function.Injective ctx.keyBytes
  keyBytes_ne_nil : ∀ key, ctx.keyBytes key ≠ []
  length_eq_of_head : ∀ key other, (ctx.keyBytes key).head? = (ctx.keyBytes other).head? →
    (ctx.keyBytes key).length = (ctx.keyBytes other).length

theorem TrieContext.Sound.length_eq_of_onPath {ctx : TrieContext κ ν δ} (sound : ctx.Sound)
    {path : List UInt8} (nonempty : path ≠ []) {key other : κ}
    (onPath : path <+: ctx.keyBytes key) (otherOnPath : path <+: ctx.keyBytes other) :
    (ctx.keyBytes key).length = (ctx.keyBytes other).length := by
  apply sound.length_eq_of_head
  rw [List.head?_eq_of_prefix_of_ne_nil onPath nonempty, List.head?_eq_of_prefix_of_ne_nil otherOnPath nonempty]

@[simp] theorem Trie.hash_pointerTo (trie : Trie κ ν δ) (hash : δ) : (trie.pointerTo hash).hash = hash := by
  cases trie <;> rfl

def ReadResult.ofEntry : Option ν → ReadResult ν
  | some value => .found value
  | none => .notFound

section Entries

variable (ctx : TrieContext κ ν δ)

/-- The entries whose key bytes start with `path`. -/
def underPath (path : List UInt8) (entries : κ → Option ν) : κ → Option ν :=
  fun key => if path <+: ctx.keyBytes key then entries key else none

def single [DecidableEq κ] (key : κ) (value : ν) : κ → Option ν :=
  fun other => if other = key then some value else none

/-- `outer` with the entries below `hole` replaced by those of `inner`. -/
def plug (hole : List UInt8) (outer inner : κ → Option ν) : κ → Option ν :=
  fun key => if hole <+: ctx.keyBytes key then inner key else outer key

/-- Every entry's key bytes start with `path`. -/
def AllUnder (path : List UInt8) (entries : κ → Option ν) : Prop :=
  ∀ key, entries key ≠ none → path <+: ctx.keyBytes key

variable {ctx}

@[simp] theorem underPath_of_onPath {path : List UInt8} {entries : κ → Option ν} {key : κ}
    (onPath : path <+: ctx.keyBytes key) : underPath ctx path entries key = entries key := by
  simp [underPath, onPath]

@[simp] theorem underPath_of_offPath {path : List UInt8} {entries : κ → Option ν} {key : κ}
    (offPath : ¬ path <+: ctx.keyBytes key) : underPath ctx path entries key = none := by
  simp [underPath, offPath]

theorem underPath_underPath {path path' : List UInt8} (longer : path <+: path')
    (entries : κ → Option ν) :
    underPath ctx path' (underPath ctx path entries) = underPath ctx path' entries := by
  funext key
  by_cases onPath : path' <+: ctx.keyBytes key
  · simp [onPath, longer.trans onPath]
  · simp [onPath]

theorem underPath_eq_of_allUnder {path : List UInt8} {entries : κ → Option ν}
    (under : AllUnder ctx path entries) : underPath ctx path entries = entries := by
  funext key
  by_cases onPath : path <+: ctx.keyBytes key
  · simp [onPath]
  · rw [underPath_of_offPath onPath]
    by_contra present
    exact onPath (under key (Ne.symm present))

theorem allUnder_underPath (path : List UInt8) (entries : κ → Option ν) :
    AllUnder ctx path (underPath ctx path entries) := by
  intro key present
  by_contra offPath
  exact present (underPath_of_offPath offPath)

theorem AllUnder.mono {path path' : List UInt8} {entries : κ → Option ν}
    (under : AllUnder ctx path' entries) (shorter : path <+: path') : AllUnder ctx path entries :=
  fun key present => shorter.trans (under key present)

@[simp] theorem plug_of_onPath {hole : List UInt8} {outer inner : κ → Option ν} {key : κ}
    (onPath : hole <+: ctx.keyBytes key) : plug ctx hole outer inner key = inner key := by
  simp [plug, onPath]

@[simp] theorem plug_of_offPath {hole : List UInt8} {outer inner : κ → Option ν} {key : κ}
    (offPath : ¬ hole <+: ctx.keyBytes key) : plug ctx hole outer inner key = outer key := by
  simp [plug, offPath]

theorem plug_underPath_plug {path hole : List UInt8} (shorter : path <+: hole)
    (outer inner : κ → Option ν) :
    plug ctx path outer (underPath ctx path (plug ctx hole outer inner)) = plug ctx hole outer inner := by
  funext key
  by_cases onPath : path <+: ctx.keyBytes key
  · simp [onPath]
  · have offHole : ¬ hole <+: ctx.keyBytes key := fun onHole => onPath (shorter.trans onHole)
    simp [onPath, offHole]

theorem underPath_plug_self {hole : List UInt8} {outer inner : κ → Option ν}
    (under : AllUnder ctx hole inner) : underPath ctx hole (plug ctx hole outer inner) = inner := by
  funext key
  by_cases onPath : hole <+: ctx.keyBytes key
  · simp [onPath]
  · rw [underPath_of_offPath onPath]
    by_contra present
    exact onPath (under key (Ne.symm present))

theorem ReadResult.ofEntry_single [DecidableEq κ] (key other : κ) (value : ν) :
    ReadResult.ofEntry (single key value other) =
      if other = key then .found value else .notFound := by
  by_cases same : other = key <;> simp [single, same, ReadResult.ofEntry]

end Entries

section Invariant

variable [DecidableEq κ]

inductive Holds (ctx : TrieContext κ ν δ) (store : δ → Option (Trie κ ν δ)) :
    List UInt8 → Trie κ ν δ → (κ → Option ν) → Prop
  | leaf {path : List UInt8} {key : κ} {value : ν} (onPath : path <+: ctx.keyBytes key) :
      Holds ctx store path (.leaf key value) (single key value)
  | node {path : List UInt8} {pointerBlock : PointerBlock δ} {entries : κ → Option ν}
      (linked : ∀ index pointer, pointerBlock.get index = some pointer →
        ∃ trie, store pointer.hash = some trie ∧ pointer = trie.pointerTo (ctx.trieHash trie))
      (child : ∀ index pointer trie, pointerBlock.get index = some pointer →
        store pointer.hash = some trie →
        Holds ctx store (path ++ [index]) trie (underPath ctx (path ++ [index]) entries))
      (vacant : ∀ index key, pointerBlock.get index = none → path ++ [index] <+: ctx.keyBytes key →
        entries key = none)
      (below : ∀ key, entries key ≠ none →
        path <+: ctx.keyBytes key ∧ path.length < (ctx.keyBytes key).length)
      (branching : path ≠ [] → 2 ≤ pointerBlock.childCount) :
      Holds ctx store path (.node pointerBlock) entries
  | extension {path affix : List UInt8} {pointerBlock : PointerBlock δ} {entries : κ → Option ν}
      (notRoot : path ≠ []) (nonempty : affix ≠ [])
      (linked : store (ctx.trieHash (.node pointerBlock)) = some (.node pointerBlock))
      (target : Holds ctx store (path ++ affix) (.node pointerBlock) entries) :
      Holds ctx store path (.extension affix (.nodePointer (ctx.trieHash (.node pointerBlock)))) entries

/-- A root that `read`, `write` and `delete` may be given: a node kept under its own
digest, whose trie holds `entries`. -/
def RootHolds (ctx : TrieContext κ ν δ) (store : δ → Option (Trie κ ν δ)) (root : δ)
    (entries : κ → Option ν) : Prop :=
  ∃ pointerBlock, root = ctx.trieHash (.node pointerBlock) ∧
    store root = some (.node pointerBlock) ∧ Holds ctx store [] (.node pointerBlock) entries

variable {ctx : TrieContext κ ν δ} {store : δ → Option (Trie κ ν δ)}

theorem RootHolds.stored {root : δ} {entries : κ → Option ν} (rootHolds : RootHolds ctx store root entries) :
    ∃ pointerBlock, store root = some (.node pointerBlock) := by
  obtain ⟨pointerBlock, -, stored, -⟩ := rootHolds
  exact ⟨pointerBlock, stored⟩

theorem Holds.allUnder {path : List UInt8} {trie : Trie κ ν δ} {entries : κ → Option ν}
    (holds : Holds ctx store path trie entries) : AllUnder ctx path entries := by
  induction holds with
  | @leaf path leafKey value onPath =>
    intro key present
    by_cases same : key = leafKey
    · subst same
      exact onPath
    · simp [single, same] at present
  | node _ _ _ below => exact fun key present => (below key present).1
  | extension _ _ _ _ ih => exact ih.mono (List.prefix_append _ _)

theorem Holds.leaf_entries {path : List UInt8} {key : κ} {value : ν} {entries : κ → Option ν}
    (holds : Holds ctx store path (.leaf key value) entries) : entries = single key value := by
  cases holds
  rfl

theorem Holds.leaf_onPath {path : List UInt8} {key : κ} {value : ν} {entries : κ → Option ν}
    (holds : Holds ctx store path (.leaf key value) entries) : path <+: ctx.keyBytes key := by
  cases holds with
  | leaf onPath => exact onPath

theorem Holds.extension_inv {path affix : List UInt8} {pointer : Pointer δ} {entries : κ → Option ν}
    (holds : Holds ctx store path (.extension affix pointer) entries) :
    ∃ pointerBlock, pointer = .nodePointer (ctx.trieHash (.node pointerBlock)) ∧ path ≠ [] ∧
      affix ≠ [] ∧ store (ctx.trieHash (.node pointerBlock)) = some (.node pointerBlock) ∧
      Holds ctx store (path ++ affix) (.node pointerBlock) entries := by
  cases holds with
  | extension notRoot nonempty linked target => exact ⟨_, rfl, notRoot, nonempty, linked, target⟩

theorem Holds.vacant {path : List UInt8} {pointerBlock : PointerBlock δ} {entries : κ → Option ν}
    (holds : Holds ctx store path (.node pointerBlock) entries) {index : UInt8} {key : κ}
    (absent : pointerBlock.get index = none) (onIndex : path ++ [index] <+: ctx.keyBytes key) :
    entries key = none := by
  cases holds with
  | node _ _ vacant => exact vacant index key absent onIndex

theorem Holds.allUnder_affix {path affix : List UInt8} {pointer : Pointer δ} {entries : κ → Option ν}
    (holds : Holds ctx store path (.extension affix pointer) entries) :
    AllUnder ctx (path ++ affix) entries := by
  cases holds with
  | extension _ _ _ target => exact target.allUnder

theorem Holds.nonempty {path : List UInt8} {trie : Trie κ ν δ} {entries : κ → Option ν}
    (holds : Holds ctx store path trie entries) (notRoot : path ≠ []) : ∃ key, entries key ≠ none := by
  induction holds with
  | @leaf _ key value _ => exact ⟨key, by simp [single]⟩
  | @node path pointerBlock entries linked _ _ _ branching ih =>
    obtain ⟨index, -, -, present, -⟩ := PointerBlock.two_le_childCount_iff.mp (branching notRoot)
    obtain ⟨pointer, found⟩ := Option.isSome_iff_exists.mp present
    obtain ⟨trie, stored, -⟩ := linked index pointer found
    obtain ⟨key, entry⟩ := ih index pointer trie found stored (by simp)
    refine ⟨key, fun absent => entry ?_⟩
    simp [underPath, absent]
  | extension _ _ _ _ ih => exact ih (by simp [*])

/-- What a trie holds depends only on the nodes below it, which a store that keeps
every node kept under its own digest still holds. -/
theorem Holds.keep {store' : δ → Option (Trie κ ν δ)} (keeps : Keeps ctx.trieHash store store')
    {path : List UInt8} {trie : Trie κ ν δ} {entries : κ → Option ν}
    (holds : Holds ctx store path trie entries) : Holds ctx store' path trie entries := by
  induction holds with
  | leaf onPath => exact .leaf onPath
  | @node path pointerBlock entries linked child vacant below branching ih =>
    -- each child is still found under its pointer
    have kept : ∀ index pointer, pointerBlock.get index = some pointer →
        ∃ trie, store' pointer.hash = some trie ∧ pointer = trie.pointerTo (ctx.trieHash trie) ∧
          store pointer.hash = some trie := by
      intro index pointer found
      obtain ⟨trie, stored, tagged⟩ := linked index pointer found
      have addressed : pointer.hash = ctx.trieHash trie := by rw [tagged, Trie.hash_pointerTo]
      rw [addressed] at stored ⊢
      exact ⟨trie, keeps trie stored, tagged, stored⟩
    refine .node (fun index pointer found => ?_) (fun index pointer trie found stored' => ?_) vacant
      below branching
    · obtain ⟨trie, stored', tagged, -⟩ := kept index pointer found
      exact ⟨trie, stored', tagged⟩
    · obtain ⟨trie', stored'', -, stored⟩ := kept index pointer found
      rw [stored''] at stored'
      obtain rfl := Option.some.inj stored'
      exact ih index pointer trie' found stored
  | extension notRoot nonempty linked _ ih => exact .extension notRoot nonempty (keeps _ linked) ih

section Sound

variable (sound : ctx.Sound)
include sound

theorem Holds.length_lt_of_node {path : List UInt8} {pointerBlock : PointerBlock δ}
    {entries : κ → Option ν} (holds : Holds ctx store path (.node pointerBlock) entries) {key : κ}
    (onPath : path <+: ctx.keyBytes key) : path.length < (ctx.keyBytes key).length := by
  by_cases atRoot : path = []
  · subst atRoot
    exact List.length_pos_iff.mpr (sound.keyBytes_ne_nil key)
  · obtain ⟨other, present⟩ := holds.nonempty atRoot
    cases holds with
    | node _ _ _ below =>
      obtain ⟨otherOnPath, longer⟩ := below other present
      rw [sound.length_eq_of_onPath atRoot onPath otherOnPath]
      exact longer

theorem Holds.length_lt_of_extension {path affix : List UInt8} {pointer : Pointer δ}
    {entries : κ → Option ν} (holds : Holds ctx store path (.extension affix pointer) entries)
    {key : κ} (onPath : path <+: ctx.keyBytes key) :
    path.length + affix.length < (ctx.keyBytes key).length := by
  cases holds with
  | extension notRoot nonempty _ target =>
    obtain ⟨other, present⟩ := target.nonempty (by simp [notRoot])
    cases target with
    | node _ _ _ below =>
      obtain ⟨otherOnPath, longer⟩ := below other present
      rw [sound.length_eq_of_onPath notRoot onPath (List.IsPrefix.of_append_left otherOnPath)]
      simpa using longer

theorem Holds.readFrom {path : List UInt8} {trie : Trie κ ν δ} {entries : κ → Option ν}
    (holds : Holds ctx store path trie entries) {key : κ} (onPath : path <+: ctx.keyBytes key)
    (fuel : Nat) (enough : (ctx.keyBytes key).length < fuel + path.length) :
    readFrom store key (ctx.keyBytes key) fuel path.length trie = some (.ofEntry (entries key)) := by
  induction holds generalizing fuel with
  | @leaf path leafKey value _ =>
    obtain ⟨fuel, rfl⟩ : ∃ rest, fuel = rest + 1 :=
      Nat.exists_eq_add_one.mpr (by have := onPath.length_le; omega)
    rw [ReadResult.ofEntry_single]
    rfl
  | @node path pointerBlock entries linked child vacant below branching ih =>
    have shorter := (Holds.node linked child vacant below branching).length_lt_of_node sound onPath
    obtain ⟨fuel, rfl⟩ : ∃ rest, fuel = rest + 1 := Nat.exists_eq_add_one.mpr (by omega)
    have next := List.prefix_append_getElem onPath shorter
    simp only [TrieStore.readFrom, dif_pos shorter]
    cases found : pointerBlock.get (ctx.keyBytes key)[path.length] with
    | none =>
      rw [vacant _ key found next]
      rfl
    | some pointer =>
      obtain ⟨trie, stored, -⟩ := linked _ pointer found
      simp only [stored]
      have deeper := ih _ pointer trie found stored next fuel (by simp; omega)
      rw [underPath_of_onPath next, List.length_append, List.length_singleton] at deeper
      exact deeper
  | @extension path affix pointerBlock entries notRoot nonempty linked target ih =>
    have shorter := (Holds.extension notRoot nonempty linked target).length_lt_of_extension sound onPath
    obtain ⟨fuel, rfl⟩ : ∃ rest, fuel = rest + 1 := Nat.exists_eq_add_one.mpr (by omega)
    have fits : path.length + affix.length ≤ (ctx.keyBytes key).length := by omega
    have longAffix : 0 < affix.length := List.length_pos_iff.mpr nonempty
    simp only [TrieStore.readFrom, if_pos fits, List.drop_take_eq_iff onPath]
    by_cases onAffix : path ++ affix <+: ctx.keyBytes key
    · simp only [if_pos onAffix, Pointer.hash_nodePointer, linked]
      have deeper := ih onAffix fuel (by simp; omega)
      rwa [List.length_append] at deeper
    · rw [if_neg onAffix]
      have absent : entries key = none := by
        by_contra present
        exact onAffix (target.allUnder key present)
      rw [absent]
      rfl

theorem RootHolds.read {root : δ} {entries : κ → Option ν} (holds : RootHolds ctx store root entries)
    (key : κ) : read ctx store root key = some (.ofEntry (entries key)) := by
  obtain ⟨pointerBlock, -, stored, holds⟩ := holds
  simp only [TrieStore.read, stored]
  exact holds.readFrom sound List.nil_prefix _ (by simp)

end Sound

end Invariant

end TrieStore
