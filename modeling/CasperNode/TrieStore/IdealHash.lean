import CasperNode.TrieStore.Holds
import CasperNode.Lib.Codec

/-!
A digest that never collides: the trie's own encoding. With single-byte keys it gives
a `TrieContext` that is `Sound`, the context the concrete runs of this development use.
-/

namespace TrieStore

variable {κ ν δ : Type}

def Pointer.codec (digest : Codec δ) : Codec (Pointer δ) :=
  (digest.sum digest).embed
    (fun | .leafPointer hash => .inl hash | .nodePointer hash => .inr hash)
    (fun | .inl hash => some (.leafPointer hash) | .inr hash => some (.nodePointer hash))
    (by rintro (hash | hash) <;> rfl)

theorem lookup_zip_map (slot : UInt8 → Option (Pointer δ)) {indices : List UInt8} {index : UInt8}
    (member : index ∈ indices) : (indices.zip (indices.map slot)).lookup index = some (slot index) := by
  induction indices with
  | nil => cases member
  | cons first rest ih =>
    by_cases same : index = first
    · subst same
      simp
    · simp only [List.map_cons, List.zip_cons_cons, List.lookup, beq_false_of_ne same]
      exact ih (List.mem_of_ne_of_mem same member)

/-- The 256 slots in index order. -/
def PointerBlock.codec (digest : Codec δ) : Codec (PointerBlock δ) :=
  (Codec.list (Codec.option (Pointer.codec digest))).embed
    (fun pointerBlock => allBytes.map pointerBlock.get)
    (fun slots => some ⟨fun index => ((allBytes.zip slots).lookup index).join⟩)
    (fun pointerBlock => by
      simp only [Option.some.injEq]
      ext1
      funext index
      have member : index ∈ allBytes := FinEnum.mem_toList index
      show ((allBytes.zip (allBytes.map pointerBlock.get)).lookup index).join = _
      rw [lookup_zip_map pointerBlock.get member, Option.join_some])

/-- The three kinds of trie behind a tag. -/
def Trie.codec (key : Codec κ) (value : Codec ν) (digest : Codec δ) : Codec (Trie κ ν δ) :=
  ((key.pair value).sum ((PointerBlock.codec digest).sum
      ((Codec.list Codec.byte).pair (Pointer.codec digest)))).embed
    (fun
      | .leaf k v => .inl (k, v)
      | .node pointerBlock => .inr (.inl pointerBlock)
      | .extension affix pointer => .inr (.inr (affix, pointer)))
    (fun
      | .inl (k, v) => some (.leaf k v)
      | .inr (.inl pointerBlock) => some (.node pointerBlock)
      | .inr (.inr (affix, pointer)) => some (.extension affix pointer))
    (by rintro (_ | _ | _) <;> rfl)

/-- Single-byte keys, and tries named by their own encoding. -/
def idealContext (value : Codec ν) : TrieContext UInt8 ν (List UInt8) where
  keyBytes key := [key]
  trieHash := (Trie.codec Codec.byte value (Codec.list Codec.byte)).encode

/-- Single-byte keys and values. -/
def byteContext : TrieContext UInt8 UInt8 (List UInt8) := idealContext Codec.byte

theorem idealContext_sound (value : Codec ν) : (idealContext value).Sound where
  hash_injective := Codec.encode_injective _
  keyBytes_injective _ _ same := List.singleton_injective same
  keyBytes_ne_nil _ := List.cons_ne_nil _ _
  length_eq_of_head _ _ _ := rfl

/-- Keys of three bytes, so that keys can share a prefix past the root and runs meet extensions,
splits and collapses. -/
def tripleContext : TrieContext (UInt8 × UInt8 × UInt8) UInt8 (List UInt8) where
  keyBytes key := [key.1, key.2.1, key.2.2]
  trieHash := (Trie.codec (Codec.byte.pair (Codec.byte.pair Codec.byte)) Codec.byte (Codec.list Codec.byte)).encode

theorem tripleContext_sound : tripleContext.Sound where
  hash_injective := Codec.encode_injective _
  keyBytes_injective key other same := by
    obtain ⟨first, second, third⟩ := key
    obtain ⟨first', second', third'⟩ := other
    simp only [tripleContext, List.cons.injEq, and_true] at same
    obtain ⟨rfl, rfl, rfl⟩ := same
    rfl
  keyBytes_ne_nil _ := List.cons_ne_nil _ _
  length_eq_of_head _ _ _ := rfl

end TrieStore
