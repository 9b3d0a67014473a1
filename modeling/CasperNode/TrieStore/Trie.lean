import Mathlib

/-!
The Merkle trie of the global state (`storage::trie`). A leaf holds a key and
its value, a node holds 256 optional child pointers indexed by one key byte,
and an extension holds an affix of key bytes skipped before the node it points
to. Children are named by digest; `TrieContext.trieHash` stands for
`Trie::trie_hash`, the digest of a trie's serialization, and `TrieContext.keyBytes`
for the key's `to_bytes`.
-/

namespace TrieStore

inductive Pointer (δ : Type) where
  | leafPointer (hash : δ)
  | nodePointer (hash : δ)
  deriving DecidableEq

namespace Pointer

variable {δ : Type}

def hash : Pointer δ → δ
  | leafPointer hash => hash
  | nodePointer hash => hash

def update : Pointer δ → δ → Pointer δ
  | leafPointer _, hash => leafPointer hash
  | nodePointer _, hash => nodePointer hash

@[simp] theorem hash_leafPointer (hash : δ) : (leafPointer hash).hash = hash := rfl
@[simp] theorem hash_nodePointer (hash : δ) : (nodePointer hash).hash = hash := rfl

@[simp] theorem nodePointer_update (old hash : δ) : (nodePointer old).update hash = nodePointer hash :=
  rfl

end Pointer

/-- The indices `0, 1, ..., 255` of a pointer block, in order. -/
def allBytes : List UInt8 := FinEnum.toList UInt8

/-- `PointerBlock`: the array `[Option<Pointer>; RADIX]` as a function of the index. -/
@[ext] structure PointerBlock (δ : Type) where
  get : UInt8 → Option (Pointer δ)

namespace PointerBlock

variable {δ : Type}

def new : PointerBlock δ := ⟨fun _ => none⟩

/-- `pointer_block[index] = value`. -/
def set (pointerBlock : PointerBlock δ) (index : UInt8) (value : Option (Pointer δ)) :
    PointerBlock δ :=
  ⟨Function.update pointerBlock.get index value⟩

def fromIndexedPointers (indexedPointers : List (UInt8 × Pointer δ)) : PointerBlock δ :=
  indexedPointers.foldl (fun ret entry => ret.set entry.1 (some entry.2)) new

def asIndexedPointers (pointerBlock : PointerBlock δ) : List (UInt8 × Pointer δ) :=
  allBytes.filterMap fun index => (pointerBlock.get index).map (index, ·)

def childCount (pointerBlock : PointerBlock δ) : Nat := pointerBlock.asIndexedPointers.length

@[simp] theorem get_new (index : UInt8) : (new : PointerBlock δ).get index = none := rfl

@[simp] theorem get_set (pointerBlock : PointerBlock δ) (index other : UInt8)
    (value : Option (Pointer δ)) :
    (pointerBlock.set index value).get other = if other = index then value else pointerBlock.get other := by
  simp only [set, Function.update_apply]

@[simp] theorem get_fromIndexedPointers_single (index other : UInt8) (pointer : Pointer δ) :
    (fromIndexedPointers [(index, pointer)]).get other = if other = index then some pointer else none := by
  simp [fromIndexedPointers]

theorem mem_asIndexedPointers {pointerBlock : PointerBlock δ} {entry : UInt8 × Pointer δ} :
    entry ∈ pointerBlock.asIndexedPointers ↔ pointerBlock.get entry.1 = some entry.2 := by
  obtain ⟨index, pointer⟩ := entry
  simp [asIndexedPointers, allBytes, FinEnum.mem_toList]

section FromIndexedPointers

variable {indexedPointers : List (UInt8 × Pointer δ)} {index : UInt8}

theorem get_foldl_set_of_forall_ne (absent : ∀ entry ∈ indexedPointers, entry.1 ≠ index) (init : PointerBlock δ) :
    (indexedPointers.foldl (fun ret entry => ret.set entry.1 (some entry.2)) init).get index = init.get index := by
  induction indexedPointers generalizing init with
  | nil => rfl
  | cons entry rest ih =>
    rw [List.foldl_cons, ih (fun other member => absent other (.tail _ member)), get_set,
      if_neg (absent entry (.head _)).symm]

theorem get_foldl_set_of_mem {pointer : Pointer δ} (member : (index, pointer) ∈ indexedPointers)
    (unique : ∀ entry ∈ indexedPointers, entry.1 = index → entry.2 = pointer) (init : PointerBlock δ) :
    (indexedPointers.foldl (fun ret entry => ret.set entry.1 (some entry.2)) init).get index = some pointer := by
  induction indexedPointers generalizing init with
  | nil => cases member
  | cons entry rest ih =>
    rw [List.foldl_cons]
    by_cases later : (index, pointer) ∈ rest
    · exact ih later (fun other member => unique other (.tail _ member)) _
    · have first : entry = (index, pointer) := by
        rcases List.mem_cons.mp member with same | inRest
        · exact same.symm
        · exact absurd inRest later
      -- an entry of the rest at the index would be the pair itself
      have absent : ∀ other ∈ rest, other.1 ≠ index := by
        intro other inRest sameIndex
        have same : other = (index, pointer) := Prod.ext sameIndex (unique other (.tail _ inRest) sameIndex)
        exact later (same ▸ inRest)
      rw [get_foldl_set_of_forall_ne absent, first, get_set, if_pos rfl]

theorem fromIndexedPointers_eq {pointerBlock : PointerBlock δ}
    (entries : ∀ entry, entry ∈ indexedPointers ↔ pointerBlock.get entry.1 = some entry.2) :
    fromIndexedPointers indexedPointers = pointerBlock := by
  ext1
  funext index
  cases found : pointerBlock.get index with
  | none =>
    refine get_foldl_set_of_forall_ne (fun entry member sameIndex => ?_) new
    have present := (entries entry).mp member
    rw [sameIndex, found] at present
    cases present
  | some pointer =>
    refine get_foldl_set_of_mem ((entries (index, pointer)).mpr found) (fun entry member sameIndex => ?_) new
    have present := (entries entry).mp member
    rw [sameIndex, found] at present
    exact (Option.some.inj present).symm

end FromIndexedPointers

/-- The indices that hold a pointer. -/
def children (pointerBlock : PointerBlock δ) : Finset UInt8 :=
  Finset.univ.filter fun index => (pointerBlock.get index).isSome

@[simp] theorem mem_children {pointerBlock : PointerBlock δ} {index : UInt8} :
    index ∈ pointerBlock.children ↔ (pointerBlock.get index).isSome := by
  simp [children]

theorem childCount_eq_card (pointerBlock : PointerBlock δ) :
    pointerBlock.childCount = pointerBlock.children.card := by
  rw [childCount, asIndexedPointers, allBytes, List.length_filterMap_eq_countP, List.countP_eq_length_filter,
    ← List.toFinset_card_of_nodup (FinEnum.nodup_toList.filter _)]
  congr 1
  ext index
  simp [children, FinEnum.mem_toList]

theorem children_set_some (pointerBlock : PointerBlock δ) (index : UInt8) (pointer : Pointer δ) :
    (pointerBlock.set index (some pointer)).children = insert index pointerBlock.children := by
  ext other
  by_cases same : other = index <;> simp [same]

theorem children_set_none (pointerBlock : PointerBlock δ) (index : UInt8) :
    (pointerBlock.set index none).children = pointerBlock.children.erase index := by
  ext other
  by_cases same : other = index <;> simp [same]

theorem two_le_childCount_iff {pointerBlock : PointerBlock δ} :
    2 ≤ pointerBlock.childCount ↔ ∃ index other, index ≠ other ∧
      (pointerBlock.get index).isSome ∧ (pointerBlock.get other).isSome := by
  rw [childCount_eq_card, Nat.succ_le_iff, Finset.one_lt_card]
  simp only [mem_children]
  constructor
  · rintro ⟨index, present, other, presentOther, distinct⟩
    exact ⟨index, other, distinct, present, presentOther⟩
  · rintro ⟨index, other, distinct, present, presentOther⟩
    exact ⟨index, present, other, presentOther, distinct⟩

theorem childCount_le_set_some (pointerBlock : PointerBlock δ) (index : UInt8) (pointer : Pointer δ) :
    pointerBlock.childCount ≤ (pointerBlock.set index (some pointer)).childCount := by
  rw [childCount_eq_card, childCount_eq_card, children_set_some]
  exact Finset.card_le_card (Finset.subset_insert _ _)

theorem childCount_set_none {pointerBlock : PointerBlock δ} {index : UInt8}
    (present : (pointerBlock.get index).isSome) :
    (pointerBlock.set index none).childCount + 1 = pointerBlock.childCount := by
  rw [childCount_eq_card, childCount_eq_card, children_set_none]
  exact Finset.card_erase_add_one (mem_children.mpr present)

theorem eq_or_eq_of_childCount_le_two {pointerBlock : PointerBlock δ} (count : pointerBlock.childCount ≤ 2)
    {first second : UInt8} (distinct : first ≠ second) (hasFirst : (pointerBlock.get first).isSome)
    (hasSecond : (pointerBlock.get second).isSome) {index : UInt8} (present : (pointerBlock.get index).isSome) :
    index = first ∨ index = second := by
  have pair : {first, second} ⊆ pointerBlock.children := by
    intro other member
    rcases Finset.mem_insert.mp member with rfl | member
    · exact mem_children.mpr hasFirst
    · rw [Finset.mem_singleton.mp member]
      exact mem_children.mpr hasSecond
  have whole : ({first, second} : Finset UInt8) = pointerBlock.children :=
    Finset.eq_of_subset_of_card_le pair (by rw [← childCount_eq_card, Finset.card_pair distinct]; exact count)
  have member := mem_children.mpr present
  rw [← whole] at member
  simpa using member

end PointerBlock

inductive Trie (κ ν δ : Type) where
  | leaf (key : κ) (value : ν)
  | node (pointerBlock : PointerBlock δ)
  | extension (affix : List UInt8) (pointer : Pointer δ)

/-- What the trie operations are generic over: `K::to_bytes` and `Trie::trie_hash`. -/
structure TrieContext (κ ν δ : Type) where
  keyBytes : κ → List UInt8
  trieHash : Trie κ ν δ → δ

/-- The pointer `rehash` gives a parent for a child stored under `hash`. -/
def Trie.pointerTo {κ ν δ : Type} (trie : Trie κ ν δ) (hash : δ) : Pointer δ :=
  match trie with
  | .leaf .. => .leafPointer hash
  | .node _ => .nodePointer hash
  | .extension .. => .nodePointer hash

@[simp] theorem Trie.pointerTo_leaf {κ ν δ : Type} (key : κ) (value : ν) (hash : δ) :
    (Trie.leaf key value).pointerTo hash = .leafPointer hash := rfl

@[simp] theorem Trie.pointerTo_node {κ ν δ : Type} (pointerBlock : PointerBlock δ) (hash : δ) :
    (Trie.node pointerBlock : Trie κ ν δ).pointerTo hash = .nodePointer hash := rfl

@[simp] theorem Trie.pointerTo_extension {κ ν δ : Type} (affix : List UInt8) (pointer : Pointer δ) (hash : δ) :
    (Trie.extension affix pointer : Trie κ ν δ).pointerTo hash = .nodePointer hash := rfl

/-- `Parents`, the `Vec` of (index, node or extension) pairs, used as a stack:
the deepest parent comes first. -/
abbrev Parents (κ ν δ : Type) := List (UInt8 × Trie κ ν δ)

end TrieStore
