import CasperNode.TrieStore.Refinement

/-!
`keys_with_prefix` and its `KeysIterator` (`trie_store::operations`). The iterator keeps
what is left of the prefix (`initial_descend`) and a stack of visited tries. While the
prefix lasts it descends along it without pushing anything back; once it is used up it
walks the subtrie depth first, a node being pushed back with the next index to try below
the child it descends into. So the keys come out in the order of their bytes.

The store is a total map here, so the error states of the iterator do not arise; `next`
pops at most `fuel` tries and `collect` calls `next` at most `calls` times.
-/

namespace TrieStore

open ContentStore

variable {κ ν δ : Type}

/-- `RADIX`, the number of slots of a node. -/
def RADIX : Nat := 256

structure VisitedTrieNode (κ ν δ : Type) where
  trie : Trie κ ν δ
  maybeIndex : Option Nat
  path : List UInt8

/-- What is left of `initial_descend`, and the `visited` stack with its top first. -/
structure KeysIterator (κ ν δ : Type) where
  initialDescend : List UInt8
  visited : List (VisitedTrieNode κ ν δ)

/-- The `while index < RADIX` loop over a node's slots: the first index from `index` on
that holds a pointer; while `descending` only `index` itself is tried. At most `fuel`
slots are tried, and `RADIX` is enough. -/
def findPointer (pointerBlock : PointerBlock δ) (descending : Bool) : Nat → Nat → Option (Nat × Pointer δ)
  | 0, _ => none
  | fuel + 1, index =>
    if index < RADIX then
      match pointerBlock.get index.toUInt8 with
      | some pointer => some (index, pointer)
      | none => if descending then none else findPointer pointerBlock descending fuel (index + 1)
    else none

section Iterator

variable (ctx : TrieContext κ ν δ) (store : δ → Option (Trie κ ν δ))

/-- The body of the loop of `KeysIterator::next` for one popped trie: the key it returns, if
any, what is left of `initial_descend`, and the tries it pushes, topmost first. -/
def KeysIterator.visit (initialDescend : List UInt8) :
    VisitedTrieNode κ ν δ → Option κ × List UInt8 × List (VisitedTrieNode κ ν δ)
  | ⟨.leaf key _, _, path⟩ =>
    -- `path.extend(&self.initial_descend)`: a leaf met while descending must match the rest of the prefix
    (if path ++ initialDescend <+: ctx.keyBytes key then some key else none, initialDescend, [])
  | ⟨.node pointerBlock, maybeIndex, path⟩ =>
    let index := ((initialDescend.head?.map UInt8.toNat).or maybeIndex).getD 0
    match findPointer pointerBlock (!initialDescend.isEmpty) RADIX index with
    | none => (none, initialDescend, [])
    | some (index, pointer) =>
      -- `pop_front` ends the descent at this node; after it the node is pushed back
      let (initialDescend, revisit) : List UInt8 × List (VisitedTrieNode κ ν δ) :=
        match initialDescend with
        | [] => ([], [⟨.node pointerBlock, some (index + 1), path⟩])
        | _ :: rest => (rest, [])
      (none, initialDescend,
        ((store pointer.hash).map fun next => ⟨next, none, path ++ [index.toUInt8]⟩).toList ++ revisit)
  | ⟨.extension affix pointer, _, path⟩ =>
    let descendLen := min initialDescend.length affix.length
    if initialDescend.take descendLen <+: affix then
      (none, initialDescend.drop descendLen,
        ((store pointer.hash).map fun next => ⟨next, none, path ++ affix⟩).toList)
    else (none, initialDescend.drop descendLen, [])

/-- `Iterator::next`: pops tries until one gives a key or the stack is empty. -/
def KeysIterator.next : Nat → KeysIterator κ ν δ → Option (Option κ × KeysIterator κ ν δ)
  | 0, _ => none
  | _ + 1, ⟨initialDescend, []⟩ => some (none, ⟨initialDescend, []⟩)
  | fuel + 1, ⟨initialDescend, node :: visited⟩ =>
    match visit ctx store initialDescend node with
    | (some key, initialDescend, pushed) => some (some key, ⟨initialDescend, pushed ++ visited⟩)
    | (none, initialDescend, pushed) => next fuel ⟨initialDescend, pushed ++ visited⟩

/-- The items of the iterator, calling `next` until it gives `None`. -/
def KeysIterator.collect (fuel : Nat) : Nat → KeysIterator κ ν δ → Option (List κ)
  | 0, _ => none
  | calls + 1, iterator =>
    match next ctx store fuel iterator with
    | none => none
    | some (none, _) => some []
    | some (some key, iterator) => (collect fuel calls iterator).map (key :: ·)

/-- Every key the loop body gives from here on, popping until the stack is empty; the
proofs reason about it and then about `collect`. -/
def KeysIterator.drain : Nat → KeysIterator κ ν δ → Option (List κ)
  | 0, _ => none
  | _ + 1, ⟨_, []⟩ => some []
  | fuel + 1, ⟨initialDescend, node :: visited⟩ =>
    let (found, initialDescend, pushed) := visit ctx store initialDescend node
    (drain fuel ⟨initialDescend, pushed ++ visited⟩).map (found.toList ++ ·)

end Iterator

def keysWithPrefix (store : δ → Option (Trie κ ν δ)) (root : δ) (keyPrefix : List UInt8) : KeysIterator κ ν δ :=
  ⟨keyPrefix, match store root with
    | none => []
    | some currentRoot => [⟨currentRoot, none, []⟩]⟩

section Fuel

variable {ctx : TrieContext κ ν δ} {store : δ → Option (Trie κ ν δ)}

theorem KeysIterator.next_succ {fuel : Nat} {iterator : KeysIterator κ ν δ}
    {result : Option κ × KeysIterator κ ν δ} (answered : next ctx store fuel iterator = some result) :
    next ctx store (fuel + 1) iterator = some result := by
  induction fuel generalizing iterator with
  | zero => cases answered
  | succ fuel ih =>
    obtain ⟨initialDescend, _ | ⟨node, visited⟩⟩ := iterator
    · exact answered
    · rcases visited' : visit ctx store initialDescend node with ⟨_ | key, initialDescend', pushed⟩
      · simp only [next, visited'] at answered ⊢
        exact ih answered
      · simpa only [next, visited'] using answered

theorem KeysIterator.collect_succ {fuel calls : Nat} {iterator : KeysIterator κ ν δ} {keys : List κ}
    (collected : collect ctx store fuel calls iterator = some keys) :
    collect ctx store (fuel + 1) calls iterator = some keys := by
  induction calls generalizing iterator keys with
  | zero => cases collected
  | succ calls ih =>
    rcases answered : next ctx store fuel iterator with _ | ⟨_ | key, iterator'⟩
    · simp [collect, answered] at collected
    · simpa [collect, next_succ answered, answered] using collected
    · simp only [collect, answered, Option.map_eq_some_iff] at collected
      obtain ⟨rest, collectedRest, rfl⟩ := collected
      simp [collect, next_succ answered, ih collectedRest]

theorem KeysIterator.drain_succ {fuel : Nat} {iterator : KeysIterator κ ν δ} {keys : List κ}
    (drained : drain ctx store fuel iterator = some keys) : drain ctx store (fuel + 1) iterator = some keys := by
  induction fuel generalizing iterator keys with
  | zero => cases drained
  | succ fuel ih =>
    obtain ⟨initialDescend, _ | ⟨node, visited⟩⟩ := iterator
    · exact drained
    · simp only [drain, Option.map_eq_some_iff] at drained ⊢
      obtain ⟨rest, drainedRest, rfl⟩ := drained
      exact ⟨rest, ih drainedRest, rfl⟩

theorem KeysIterator.drain_mono {fuel fuel' : Nat} {iterator : KeysIterator κ ν δ} {keys : List κ}
    (drained : drain ctx store fuel iterator = some keys) (more : fuel ≤ fuel') :
    drain ctx store fuel' iterator = some keys := by
  induction more with
  | refl => exact drained
  | step _ ih => exact drain_succ ih

theorem KeysIterator.collect_skip {fuel calls : Nat} {iterator iterator' : KeysIterator κ ν δ} {keys : List κ}
    (skipped : next ctx store (fuel + 1) iterator = next ctx store fuel iterator')
    (collected : collect ctx store fuel calls iterator' = some keys) :
    collect ctx store (fuel + 1) calls iterator = some keys := by
  cases calls with
  | zero => cases collected
  | succ calls =>
    rcases answered : next ctx store fuel iterator' with _ | ⟨_ | key, iterator''⟩
    · simp [collect, answered] at collected
    · simpa [collect, skipped, answered] using collected
    · simp only [collect, answered, Option.map_eq_some_iff] at collected
      obtain ⟨rest, collectedRest, rfl⟩ := collected
      simp [collect, skipped, answered, collect_succ collectedRest]

/-- What the loop body gives until the stack is empty is what the iterator returns. By
induction on the fuel, one case per kind of pop. -/
theorem KeysIterator.collect_of_drain {fuel : Nat} {iterator : KeysIterator κ ν δ} {keys : List κ}
    (drained : drain ctx store fuel iterator = some keys) :
    collect ctx store fuel (keys.length + 1) iterator = some keys := by
  induction fuel generalizing iterator keys with
  | zero => cases drained
  | succ fuel ih =>
    obtain ⟨initialDescend, _ | ⟨node, visited⟩⟩ := iterator
    · simp only [drain, Option.some.injEq] at drained
      subst drained
      rfl
    · rcases visited' : visit ctx store initialDescend node with ⟨_ | key, initialDescend', pushed⟩
      · simp only [drain, visited', Option.toList_none, List.nil_append, Option.map_id'] at drained
        exact collect_skip (by simp [next, visited']) (ih drained)
      · simp only [drain, visited', Option.toList_some, List.singleton_append, Option.map_eq_some_iff] at drained
        obtain ⟨rest, drainedRest, rfl⟩ := drained
        simp [collect, next, visited', collect_succ (ih drainedRest)]

variable (ctx store) in
theorem KeysIterator.visit_nil (node : VisitedTrieNode κ ν δ) :
    ∃ found pushed, visit ctx store [] node = (found, [], pushed) := by
  obtain ⟨_ | pointerBlock | _, maybeIndex, path⟩ := node
  · exact ⟨_, _, rfl⟩
  · simp only [visit]
    split
    · exact ⟨_, _, rfl⟩
    · exact ⟨_, _, rfl⟩
  · simp [visit]

/-- Past the prefix the stack runs as a stack: what is below waits for what is above. By
induction on the fuel of the part above. -/
theorem KeysIterator.drain_append {fuel fuel' : Nat} {first second : List (VisitedTrieNode κ ν δ)}
    {keys keys' : List κ} (drained : drain ctx store fuel ⟨[], first⟩ = some keys)
    (drained' : drain ctx store fuel' ⟨[], second⟩ = some keys') :
    drain ctx store (fuel + fuel') ⟨[], first ++ second⟩ = some (keys ++ keys') := by
  induction fuel generalizing first keys with
  | zero => cases drained
  | succ fuel ih =>
    cases first with
    | nil =>
      simp only [drain, Option.some.injEq] at drained
      subst drained
      exact drain_mono drained' (by omega)
    | cons node first =>
      obtain ⟨found, pushed, visited⟩ := visit_nil ctx store node
      simp only [drain, visited, Option.map_eq_some_iff] at drained
      obtain ⟨rest, drainedRest, rfl⟩ := drained
      have appended := ih drainedRest
      rw [List.append_assoc] at appended
      rw [show fuel + 1 + fuel' = fuel + fuel' + 1 by omega]
      simp [drain, visited, appended]

end Fuel

section FindPointer

variable {pointerBlock : PointerBlock δ}

theorem findPointer_eq_some {descending : Bool} {fuel index found : Nat} {pointer : Pointer δ}
    (answered : findPointer pointerBlock descending fuel index = some (found, pointer)) :
    index ≤ found ∧ found < RADIX ∧ pointerBlock.get found.toUInt8 = some pointer ∧
      ∀ skipped, index ≤ skipped → skipped < found → pointerBlock.get skipped.toUInt8 = none := by
  induction fuel generalizing index with
  | zero => cases answered
  | succ fuel ih =>
    by_cases inRange : index < RADIX
    swap
    · simp [findPointer, inRange] at answered
    simp only [findPointer, if_pos inRange] at answered
    cases slot : pointerBlock.get index.toUInt8 with
    | some other =>
      simp only [slot, Option.some.injEq, Prod.mk.injEq] at answered
      obtain ⟨rfl, rfl⟩ := answered
      exact ⟨Nat.le_refl _, inRange, slot, fun skipped atLeast below => absurd below (by omega)⟩
    | none =>
      cases descending with
      | true => simp [slot] at answered
      | false =>
        simp only [slot, Bool.false_eq_true, ↓reduceIte] at answered
        obtain ⟨atLeast, below, got, skipped⟩ := ih answered
        refine ⟨by omega, below, got, fun other atLeast' below' => ?_⟩
        by_cases same : other = index
        · subst same
          exact slot
        · exact skipped other (by omega) below'

theorem findPointer_eq_none {fuel index : Nat} (answered : findPointer pointerBlock false fuel index = none)
    (enough : RADIX ≤ index + fuel) :
    ∀ other, index ≤ other → other < RADIX → pointerBlock.get other.toUInt8 = none := by
  induction fuel generalizing index with
  | zero => intro other atLeast below; omega
  | succ fuel ih =>
    intro other atLeast below
    by_cases inRange : index < RADIX
    · simp only [findPointer, if_pos inRange] at answered
      cases slot : pointerBlock.get index.toUInt8 with
      | some pointer => simp [slot] at answered
      | none =>
        simp only [slot, Bool.false_eq_true, ↓reduceIte] at answered
        by_cases same : other = index
        · subst same
          exact slot
        · exact ih answered (by omega) other (by omega) below
    · omega

theorem findPointer_descending (byte : UInt8) :
    findPointer pointerBlock true RADIX byte.toNat = (pointerBlock.get byte).map (byte.toNat, ·) := by
  have inRange : byte.toNat < RADIX := UInt8.toNat_lt_size byte
  have sameByte : byte.toNat.toUInt8 = byte := by simp
  rw [show RADIX = 255 + 1 from rfl, findPointer, if_pos inRange, sameByte]
  cases pointerBlock.get byte <;> rfl

end FindPointer

/-- `keys` are the keys of `entries` that `within` admits, each once and in increasing
order of their bytes. -/
structure Enumerates (ctx : TrieContext κ ν δ) (entries : κ → Option ν) (within : κ → Prop) (keys : List κ) :
    Prop where
  mem_iff : ∀ key, key ∈ keys ↔ entries key ≠ none ∧ within key
  sorted : keys.Pairwise fun key other => ctx.keyBytes key < ctx.keyBytes other

namespace Enumerates

variable {ctx : TrieContext κ ν δ} {entries : κ → Option ν} {within within' : κ → Prop} {keys keys' : List κ}

theorem nil (outside : ∀ key, entries key ≠ none → ¬ within key) : Enumerates ctx entries within [] :=
  ⟨fun key => by simpa using outside key, List.Pairwise.nil⟩

theorem congr (enumerates : Enumerates ctx entries within keys)
    (same : ∀ key, entries key ≠ none → (within key ↔ within' key)) : Enumerates ctx entries within' keys := by
  refine ⟨fun key => ?_, enumerates.sorted⟩
  rw [enumerates.mem_iff]
  exact ⟨fun ⟨present, admitted⟩ => ⟨present, (same key present).mp admitted⟩,
    fun ⟨present, admitted⟩ => ⟨present, (same key present).mpr admitted⟩⟩

theorem append (first : Enumerates ctx entries within keys) (second : Enumerates ctx entries within' keys')
    (ordered : ∀ key ∈ keys, ∀ other ∈ keys', ctx.keyBytes key < ctx.keyBytes other) :
    Enumerates ctx entries (fun key => within key ∨ within' key) (keys ++ keys') := by
  refine ⟨fun key => ?_, List.pairwise_append.mpr ⟨first.sorted, second.sorted, ordered⟩⟩
  rw [List.mem_append, first.mem_iff, second.mem_iff]
  tauto

theorem nodup (enumerates : Enumerates ctx entries within keys) : keys.Nodup :=
  enumerates.sorted.imp fun {key other} less same => by
    rw [same] at less
    exact List.lt_irrefl _ less

theorem of_underPath {path : List UInt8} (enumerates : Enumerates ctx (underPath ctx path entries) within keys) :
    Enumerates ctx entries (fun key => path <+: ctx.keyBytes key ∧ within key) keys := by
  refine ⟨fun key => ?_, enumerates.sorted⟩
  rw [enumerates.mem_iff]
  by_cases onPath : path <+: ctx.keyBytes key
  · simp [onPath]
  · simp [onPath]

end Enumerates

section Enumerate

variable [DecidableEq κ] {ctx : TrieContext κ ν δ} {store : δ → Option (Trie κ ν δ)}

omit [DecidableEq κ] in
/-- A node pushed back at `index` gives the keys below its slots from `index` on: the
child at the first slot that holds a pointer, then the node again from the slot after.
By recursion on the slots left. -/
theorem drain_node_from {path : List UInt8} {pointerBlock : PointerBlock δ} {entries : κ → Option ν}
    (linked : ∀ index pointer, pointerBlock.get index = some pointer →
      ∃ trie, store pointer.hash = some trie ∧ pointer = trie.pointerTo (ctx.trieHash trie))
    (vacant : ∀ index key, pointerBlock.get index = none → path ++ [index] <+: ctx.keyBytes key →
      entries key = none)
    (children : ∀ index pointer trie, pointerBlock.get index = some pointer → store pointer.hash = some trie →
      ∃ fuel keys, KeysIterator.drain ctx store fuel ⟨[], [⟨trie, none, path ++ [index]⟩]⟩ = some keys ∧
        Enumerates ctx (underPath ctx (path ++ [index]) entries) (fun _ => True) keys)
    (index : Nat) :
    ∃ fuel keys, KeysIterator.drain ctx store fuel ⟨[], [⟨.node pointerBlock, some index, path⟩]⟩ = some keys ∧
      Enumerates ctx entries (fun key => ∃ byte, path ++ [byte] <+: ctx.keyBytes key ∧ index ≤ byte.toNat) keys := by
  rcases found : findPointer pointerBlock false RADIX index with _ | ⟨next, pointer⟩
  · -- no slot from `index` on holds a pointer
    refine ⟨2, [], by simp [KeysIterator.drain, KeysIterator.visit, found], Enumerates.nil ?_⟩
    rintro key present ⟨byte, onByte, atLeast⟩
    have empty : pointerBlock.get byte = none := by
      simpa using findPointer_eq_none found (by omega) byte.toNat atLeast (UInt8.toNat_lt_size byte)
    exact present (vacant byte key empty onByte)
  · obtain ⟨atLeast, below, got, skipped⟩ := findPointer_eq_some found
    obtain ⟨child, stored, -⟩ := linked _ pointer got
    obtain ⟨fuel, keys, drained, enumerates⟩ := children _ pointer child got stored
    obtain ⟨fuel', keys', drained', enumerates'⟩ := drain_node_from linked vacant children (next + 1)
    have nextByte : next.toUInt8.toNat = next := UInt8.toNat_ofNat_of_lt' below
    refine ⟨fuel + fuel' + 1, keys ++ keys', ?_, ?_⟩
    · have combined := KeysIterator.drain_append drained drained'
      simp only [List.singleton_append] at combined
      simp [KeysIterator.drain, KeysIterator.visit, found, stored, combined]
    · -- the keys below `next` come first, then those from `next + 1` on
      have ordered : ∀ key ∈ keys, ∀ other ∈ keys', ctx.keyBytes key < ctx.keyBytes other := by
        intro key member other member'
        have onNext := (Enumerates.of_underPath enumerates |>.mem_iff key).mp member
        obtain ⟨-, byte, onByte, later⟩ := (enumerates'.mem_iff other).mp member'
        refine List.lt_of_prefixes_append_singleton onNext.2.1 onByte ?_
        rw [UInt8.lt_iff_toNat_lt, nextByte]
        omega
      refine (enumerates.of_underPath.append enumerates' ordered).congr fun key present => ?_
      constructor
      · rintro (⟨onNext, -⟩ | ⟨byte, onByte, later⟩)
        · exact ⟨next.toUInt8, onNext, by rw [nextByte]; exact atLeast⟩
        · exact ⟨byte, onByte, by omega⟩
      · rintro ⟨byte, onByte, atLeast'⟩
        rcases Nat.lt_trichotomy byte.toNat next with before | same | after
        · -- slots between `index` and `next` are empty
          have empty : pointerBlock.get byte = none := by simpa using skipped byte.toNat atLeast' before
          exact absurd (vacant byte key empty onByte) present
        · have sameByte : byte = next.toUInt8 := by
            rw [← same]
            simp
          exact .inl ⟨sameByte ▸ onByte, trivial⟩
        · exact .inr ⟨byte, onByte, after⟩
termination_by RADIX - index
decreasing_by omega

/-- From a trie that holds `entries`, with `initialDescend` of the prefix left, the
iterator gives the keys of `entries` below `path ++ initialDescend`, in order. By
induction on the invariant; at a node the descent takes one slot, and past the prefix
the node's slots are walked from the first. -/
theorem Holds.drain {path : List UInt8} {trie : Trie κ ν δ} {entries : κ → Option ν}
    (holds : Holds ctx store path trie entries) (initialDescend : List UInt8) :
    ∃ fuel keys, KeysIterator.drain ctx store fuel ⟨initialDescend, [⟨trie, none, path⟩]⟩ = some keys ∧
      Enumerates ctx entries (fun key => path ++ initialDescend <+: ctx.keyBytes key) keys := by
  induction holds generalizing initialDescend with
  | @leaf path key value onPath =>
    by_cases admitted : path ++ initialDescend <+: ctx.keyBytes key
    · refine ⟨2, [key], by simp [KeysIterator.drain, KeysIterator.visit, admitted], ⟨fun other => ?_, by simp⟩⟩
      by_cases same : other = key
      · subst same
        simp [single, admitted]
      · simp [single, same]
    · refine ⟨2, [], by simp [KeysIterator.drain, KeysIterator.visit, admitted], Enumerates.nil fun other present => ?_⟩
      by_cases same : other = key
      · subst same
        exact admitted
      · simp [single, same] at present
  | @node path pointerBlock entries linked child vacant below branching ih =>
    cases initialDescend with
    | nil =>
      -- the prefix is used up: walk every slot, starting at the first
      have children : ∀ index pointer trie, pointerBlock.get index = some pointer → store pointer.hash = some trie →
          ∃ fuel keys, KeysIterator.drain ctx store fuel ⟨[], [⟨trie, none, path ++ [index]⟩]⟩ = some keys ∧
            Enumerates ctx (underPath ctx (path ++ [index]) entries) (fun _ => True) keys := by
        intro index pointer trie found stored
        obtain ⟨fuel, keys, drained, enumerates⟩ := ih index pointer trie found stored []
        refine ⟨fuel, keys, drained, enumerates.congr fun key present => ?_⟩
        have onIndex := (child index pointer trie found stored).allUnder key present
        simp only [List.append_nil]
        exact ⟨fun _ => trivial, fun _ => onIndex⟩
      obtain ⟨fuel, keys, drained, enumerates⟩ := drain_node_from linked vacant children 0
      refine ⟨fuel, keys, by cases fuel <;> exact drained, enumerates.congr fun key present => ?_⟩
      obtain ⟨onPath, longer⟩ := below key present
      simp only [List.append_nil]
      exact ⟨fun _ => onPath, fun _ => ⟨_, List.prefix_append_getElem onPath longer, Nat.zero_le _⟩⟩
    | cons byte rest =>
      cases slot : pointerBlock.get byte with
      | none =>
        refine ⟨2, [], ?_, Enumerates.nil fun key present onPath => present (vacant byte key slot ?_)⟩
        · simp [KeysIterator.drain, KeysIterator.visit, findPointer_descending, slot]
        · exact ((List.prefix_append_right_inj path).mpr (List.prefix_append [byte] rest)).trans onPath
      | some pointer =>
        obtain ⟨next, stored, -⟩ := linked byte pointer slot
        obtain ⟨fuel, keys, drained, enumerates⟩ := ih byte pointer next slot stored rest
        refine ⟨fuel + 1, keys, ?_, enumerates.of_underPath.congr fun key present => ?_⟩
        · simp [KeysIterator.drain, KeysIterator.visit, findPointer_descending, slot, stored, drained]
        · rw [List.append_assoc, List.singleton_append]
          exact ⟨fun facts => facts.2, fun onRest => ⟨List.IsPrefix.of_append_left (by simpa using onRest), onRest⟩⟩
  | @extension path affix pointerBlock entries notRoot nonempty linked target ih =>
    by_cases agrees : initialDescend.take (min initialDescend.length affix.length) <+: affix
    · obtain ⟨fuel, keys, drained, enumerates⟩ := ih (initialDescend.drop (min initialDescend.length affix.length))
      refine ⟨fuel + 1, keys, ?_, enumerates.congr fun key present => ?_⟩
      · simp [KeysIterator.drain, KeysIterator.visit, agrees, linked, drained]
      · exact List.append_drop_min_prefix_iff agrees (target.allUnder key present)
    · refine ⟨2, [], by simp [KeysIterator.drain, KeysIterator.visit, agrees],
        Enumerates.nil fun key present onPath => agrees ?_⟩
      exact List.take_min_prefix_of_prefixes (target.allUnder key present) onPath

end Enumerate

section Sound

variable [DecidableEq κ] {ctx : TrieContext κ ν δ} {store : δ → Option (Trie κ ν δ)}

theorem RootHolds.collect_keysWithPrefix {root : δ} {entries : κ → Option ν}
    (rootHolds : RootHolds ctx store root entries) (keyPrefix : List UInt8) :
    ∃ fuel keys, KeysIterator.collect ctx store fuel (keys.length + 1) (keysWithPrefix store root keyPrefix) =
        some keys ∧ Enumerates ctx entries (fun key => keyPrefix <+: ctx.keyBytes key) keys := by
  obtain ⟨pointerBlock, -, stored, holds⟩ := rootHolds
  obtain ⟨fuel, keys, drained, enumerates⟩ := holds.drain keyPrefix
  have started : keysWithPrefix store root keyPrefix = ⟨keyPrefix, [⟨.node pointerBlock, none, []⟩]⟩ := by
    simp [keysWithPrefix, stored]
  refine ⟨fuel, keys, by rw [started]; exact KeysIterator.collect_of_drain drained, ?_⟩
  exact enumerates.congr fun key _ => by rw [List.nil_append]

theorem keys_with_prefix_enumerates {root : δ} {entries : κ → Option ν}
    (rootHolds : RootHolds ctx store root entries) (keyPrefix : List UInt8) :
    ∃ fuel keys, KeysIterator.collect ctx store fuel (keys.length + 1) (keysWithPrefix store root keyPrefix) =
        some keys ∧
      (∀ key, key ∈ keys ↔ entries key ≠ none ∧ keyPrefix <+: ctx.keyBytes key) ∧
      keys.Nodup ∧ keys.Pairwise fun key other => ctx.keyBytes key < ctx.keyBytes other := by
  obtain ⟨fuel, keys, collected, enumerates⟩ := rootHolds.collect_keysWithPrefix keyPrefix
  exact ⟨fuel, keys, collected, enumerates.mem_iff, enumerates.nodup, enumerates.sorted⟩

end Sound

/-- Three writes, two of whose keys start with `[1, 2]`. -/
def prefixedWrites : List (Operation (UInt8 × UInt8 × UInt8) UInt8) :=
  Operation.writeAll [((1, 2, 4), 6), ((1, 3, 0), 7), ((1, 2, 3), 5)]

/-- Under the prefix `[1, 2]` the iterator goes through the extension to both keys below it, and
not to the key beside it. -/
theorem keys_with_prefix_enumerates_on_shared_prefix :
    ∃ store root, runOperations tripleContext prefixedWrites (emptyStore tripleContext, emptyRoot tripleContext) =
        some (store, root) ∧
      ∃ fuel keys, KeysIterator.collect tripleContext store fuel (keys.length + 1)
          (keysWithPrefix store root [1, 2]) = some keys ∧
        (1, 2, 3) ∈ keys ∧ (1, 2, 4) ∈ keys ∧ (1, 3, 0) ∉ keys ∧
        (∀ key, key ∈ keys ↔ Operation.applyAll prefixedWrites (fun _ => none) key ≠ none ∧
          [1, 2] <+: tripleContext.keyBytes key) ∧
        keys.Nodup ∧ keys.Pairwise fun key other => tripleContext.keyBytes key < tripleContext.keyBytes other := by
  obtain ⟨store, root, ran, rootHolds⟩ :=
    (rootHolds_empty tripleContext).runOperations tripleContext_sound prefixedWrites
  obtain ⟨fuel, keys, collected, listed, distinct, sorted⟩ := keys_with_prefix_enumerates rootHolds [1, 2]
  refine ⟨store, root, ran, fuel, keys, collected, (listed _).mpr ⟨by decide, by decide⟩,
    (listed _).mpr ⟨by decide, by decide⟩, fun member => ?_, listed, distinct, sorted⟩
  exact absurd ((listed _).mp member).2 (by decide)

end TrieStore
