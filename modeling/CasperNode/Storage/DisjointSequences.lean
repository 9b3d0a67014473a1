import Mathlib

/-!
`DisjointSequences` of the storage component (`node/src/components/storage/disjoint_sequences.rs`):
the block heights held, as runs kept from the highest to the lowest with a gap between any
two. Heights are `u64` values below `u64::MAX`, so no `+ 1` of the source overflows and they
are `Nat` here.

`insert` and `truncate` keep the runs canonical and change the set they denote as the set
operations do. The batching loop of `From<Vec<u64>>` only peeks at a value that does not
extend the current run, so it returns exactly when the sorted values form a single run.
-/

namespace Storage

structure Sequence where
  high : Nat
  low : Nat
  deriving DecidableEq, Repr

inductive InsertOutcome where
  | tooHigh
  | extendedHigh
  | alreadyInSequence
  | extendedLow
  | tooLow
  deriving DecidableEq, Repr

def Sequence.single (value : Nat) : Sequence := ⟨value, value⟩

/-- `try_insert`: the outcome, and the sequence as it is left. -/
def Sequence.tryInsert (sequence : Sequence) (value : Nat) : InsertOutcome × Sequence :=
  if value = sequence.high + 1 then (.extendedHigh, { sequence with high := value })
  else if value ≥ sequence.low ∧ value ≤ sequence.high then (.alreadyInSequence, sequence)
  else if value + 1 = sequence.low then (.extendedLow, { sequence with low := value })
  else if value > sequence.high then (.tooHigh, sequence)
  else (.tooLow, sequence)

structure DisjointSequences where
  sequences : List Sequence
  deriving DecidableEq, Repr

namespace DisjointSequences

def default : DisjointSequences := ⟨[]⟩

/-- The loop of `insert` from `index` on: the sequences as it leaves them, then
`maybe_insertion_index`, `maybe_removal_index` and `added_new_value`. -/
def insertLoop (value : Nat) : Nat → Option Nat → List Sequence →
    List Sequence × Option Nat × Option Nat × Bool
  | _, maybeInsertionIndex, [] => ([], maybeInsertionIndex, none, true)
  | index, _, sequence :: rest =>
    match sequence.tryInsert value with
    | (.extendedHigh, sequence) => (sequence :: rest, none, none, true)
    | (.alreadyInSequence, sequence) => (sequence :: rest, none, none, false)
    | (.tooHigh, sequence) => (sequence :: rest, some index, none, true)
    | (.tooLow, sequence) =>
      let (rest, maybeInsertionIndex, maybeRemovalIndex, addedNewValue) :=
        insertLoop value (index + 1) (some (index + 1)) rest
      (sequence :: rest, maybeInsertionIndex, maybeRemovalIndex, addedNewValue)
    | (.extendedLow, sequence) =>
      -- the peeked next sequence is merged when it now touches this one
      match rest with
      | next :: _ =>
        if next.high + 1 = sequence.low then
          ({ sequence with low := next.low } :: rest, none, some (index + 1), true)
        else (sequence :: rest, none, none, true)
      | [] => (sequence :: rest, none, none, true)

def insert (disjointSequences : DisjointSequences) (value : Nat) : DisjointSequences × Bool :=
  let (sequences, maybeInsertionIndex, maybeRemovalIndex, addedNewValue) :=
    insertLoop value 0 (some 0) disjointSequences.sequences
  let sequences := match maybeInsertionIndex with
    | some index => sequences.insertIdx index (.single value)
    | none => sequences
  let sequences := match maybeRemovalIndex with
    | some index => sequences.eraseIdx index
    | none => sequences
  (⟨sequences⟩, addedNewValue)

/-- `truncate`: `retain_mut` keeps the sequences in order, cutting the one that holds
`max_value` down to it. -/
def truncate (disjointSequences : DisjointSequences) (maxValue : Nat) : DisjointSequences :=
  ⟨disjointSequences.sequences.filterMap fun sequence =>
    if sequence.high ≤ maxValue then some sequence
    else if sequence.low > maxValue then none
    else some { sequence with high := maxValue }⟩

def contains (disjointSequences : DisjointSequences) (value : Nat) : Bool :=
  disjointSequences.sequences.any fun sequence => value ≥ sequence.low && value ≤ sequence.high

def extend (disjointSequences : DisjointSequences) (values : List Nat) : DisjointSequences :=
  values.foldl (fun disjointSequences value => (disjointSequences.insert value).1) disjointSequences

/-- The inner loop of the batching closure of `from`: the next value is taken when it
extends the sequence, and otherwise only peeked at again. -/
def extendSequence : Nat → Sequence → List Nat → Option (Sequence × List Nat)
  | 0, _, _ => none
  | _ + 1, sequence, [] => some (sequence, [])
  | fuel + 1, sequence, next :: rest =>
    if next = sequence.high + 1 then extendSequence fuel { sequence with high := next } rest
    else extendSequence fuel sequence (next :: rest)

/-- `batching` of `from`: a sequence from each value the inner loop has not taken. -/
def batchSequences : Nat → List Nat → Option (List Sequence)
  | 0, _ => none
  | _ + 1, [] => some []
  | fuel + 1, low :: rest => do
    let (sequence, rest) ← extendSequence fuel (.single low) rest
    let sequences ← batchSequences fuel rest
    return sequence :: sequences

/-- `From<Vec<u64>>` with `fuel` turns for each loop; `none` is a loop that has not returned. -/
def ofVecWith (fuel : Nat) (input : List Nat) : Option DisjointSequences :=
  (batchSequences fuel (input.insertionSort (· ≤ ·))).map fun sequences => ⟨sequences⟩

/-- `From<Vec<u64>>`: each turn of either loop that returns takes a value, so the length and
one more turn are enough for it. -/
def ofVec (input : List Nat) : Option DisjointSequences := ofVecWith (input.length + 1) input

end DisjointSequences

/-- The canonical form: each run has `low ≤ high`, and each is above the next with a gap. -/
structure Canonical (sequences : List Sequence) : Prop where
  ordered : ∀ sequence ∈ sequences, sequence.low ≤ sequence.high
  gaps : sequences.IsChain fun sequence next => next.high + 1 < sequence.low

instance (sequences : List Sequence) : Decidable (Canonical sequences) :=
  decidable_of_iff ((∀ sequence ∈ sequences, sequence.low ≤ sequence.high) ∧
      sequences.IsChain fun sequence next => next.high + 1 < sequence.low)
    ⟨fun ⟨ordered, gaps⟩ => ⟨ordered, gaps⟩, fun canonical => ⟨canonical.ordered, canonical.gaps⟩⟩

/-- Every run ends more than one below `bound`. -/
def Below (bound : Nat) (sequences : List Sequence) : Prop :=
  ∀ sequence ∈ sequences, sequence.high + 1 < bound

namespace DisjointSequences

section TryInsert

variable {sequence : Sequence} {value : Nat}

attribute [local simp] Sequence.tryInsert

theorem tryInsert_of_next (next : value = sequence.high + 1) :
    sequence.tryInsert value = (.extendedHigh, { sequence with high := value }) := by
  simp [next]

theorem tryInsert_of_inside (inside : sequence.low ≤ value ∧ value ≤ sequence.high) :
    sequence.tryInsert value = (.alreadyInSequence, sequence) := by
  have notNext : value ≠ sequence.high + 1 := by omega
  simp [notNext, inside]

theorem tryInsert_of_previous (ordered : sequence.low ≤ sequence.high) (previous : value + 1 = sequence.low) :
    sequence.tryInsert value = (.extendedLow, { sequence with low := value }) := by
  have notNext : value ≠ sequence.high + 1 := by omega
  have outside : ¬ (value ≥ sequence.low ∧ value ≤ sequence.high) := by omega
  simp [notNext, outside, previous]

theorem tryInsert_of_above (ordered : sequence.low ≤ sequence.high) (above : sequence.high + 1 < value) :
    sequence.tryInsert value = (.tooHigh, sequence) := by
  have notNext : value ≠ sequence.high + 1 := by omega
  have outside : ¬ (value ≥ sequence.low ∧ value ≤ sequence.high) := by omega
  have notPrevious : value + 1 ≠ sequence.low := by omega
  have isAbove : value > sequence.high := by omega
  simp [notNext, outside, notPrevious, isAbove]

theorem tryInsert_of_below (ordered : sequence.low ≤ sequence.high) (below : value + 1 < sequence.low) :
    sequence.tryInsert value = (.tooLow, sequence) := by
  have notNext : value ≠ sequence.high + 1 := by omega
  have outside : ¬ (value ≥ sequence.low ∧ value ≤ sequence.high) := by omega
  have notPrevious : value + 1 ≠ sequence.low := by omega
  have notAbove : ¬ value > sequence.high := by omega
  simp [notNext, outside, notPrevious, notAbove]

end TryInsert

section Insert

variable {sequence : Sequence} {rest : List Sequence} {value : Nat}

attribute [local simp] DisjointSequences.insert insertLoop

/-- The loop from one index further on finds the same, one index further on. By induction
on the sequences. -/
theorem insertLoop_succ (value index : Nat) (sequences : List Sequence) :
    insertLoop value (index + 1) (some (index + 1)) sequences =
      ((insertLoop value index (some index) sequences).1,
        (insertLoop value index (some index) sequences).2.1.map (· + 1),
        (insertLoop value index (some index) sequences).2.2.1.map (· + 1),
        (insertLoop value index (some index) sequences).2.2.2) := by
  induction sequences generalizing index with
  | nil => rfl
  | cons sequence rest ih =>
    simp only [insertLoop]
    split
    · rfl
    · rfl
    · rfl
    · rw [ih (index + 1)]
    · split
      · split <;> rfl
      · rfl

@[simp] theorem insert_nil (value : Nat) : (⟨[]⟩ : DisjointSequences).insert value = (⟨[.single value]⟩, true) := rfl

theorem insert_cons_of_next (next : value = sequence.high + 1) :
    (⟨sequence :: rest⟩ : DisjointSequences).insert value = (⟨{ sequence with high := value } :: rest⟩, true) := by
  simp [tryInsert_of_next next]

theorem insert_cons_of_inside (inside : sequence.low ≤ value ∧ value ≤ sequence.high) :
    (⟨sequence :: rest⟩ : DisjointSequences).insert value = (⟨sequence :: rest⟩, false) := by
  simp [tryInsert_of_inside inside]

theorem insert_cons_of_above (ordered : sequence.low ≤ sequence.high) (above : sequence.high + 1 < value) :
    (⟨sequence :: rest⟩ : DisjointSequences).insert value = (⟨.single value :: sequence :: rest⟩, true) := by
  simp [tryInsert_of_above ordered above]

theorem insert_cons_of_below (ordered : sequence.low ≤ sequence.high) (below : value + 1 < sequence.low) :
    (⟨sequence :: rest⟩ : DisjointSequences).insert value =
      (⟨sequence :: ((⟨rest⟩ : DisjointSequences).insert value).1.sequences⟩,
        ((⟨rest⟩ : DisjointSequences).insert value).2) := by
  have shifted := insertLoop_succ value 0 rest
  simp only [insert, insertLoop, tryInsert_of_below ordered below, Nat.zero_add] at shifted ⊢
  rw [shifted]
  obtain ⟨looped, maybeInsertionIndex, maybeRemovalIndex, addedNewValue⟩ := insertLoop value 0 (some 0) rest
  cases maybeInsertionIndex <;> cases maybeRemovalIndex <;>
    simp [List.insertIdx_succ_cons, List.eraseIdx_cons_succ]

/-- Just below a sequence: the sequence reaches down to the value, and takes in the next one
when that ends just below the value. -/
theorem insert_cons_of_previous (ordered : sequence.low ≤ sequence.high) (previous : value + 1 = sequence.low) :
    (⟨sequence :: rest⟩ : DisjointSequences).insert value =
      match rest with
      | next :: rest =>
        if next.high + 1 = value then (⟨⟨sequence.high, next.low⟩ :: rest⟩, true)
        else (⟨⟨sequence.high, value⟩ :: next :: rest⟩, true)
      | [] => (⟨[⟨sequence.high, value⟩]⟩, true) := by
  cases rest with
  | nil => simp [tryInsert_of_previous ordered previous]
  | cons next rest =>
    by_cases touches : next.high + 1 = value
    · simp [tryInsert_of_previous ordered previous, touches]
    · simp [tryInsert_of_previous ordered previous, touches]

theorem insert_cons_cases (ordered : sequence.low ≤ sequence.high) :
    (value = sequence.high + 1 ∧
      (⟨sequence :: rest⟩ : DisjointSequences).insert value = (⟨{ sequence with high := value } :: rest⟩, true)) ∨
    (sequence.low ≤ value ∧ value ≤ sequence.high ∧
      (⟨sequence :: rest⟩ : DisjointSequences).insert value = (⟨sequence :: rest⟩, false)) ∨
    (sequence.high + 1 < value ∧
      (⟨sequence :: rest⟩ : DisjointSequences).insert value = (⟨.single value :: sequence :: rest⟩, true)) ∨
    (value + 1 < sequence.low ∧
      (⟨sequence :: rest⟩ : DisjointSequences).insert value =
        (⟨sequence :: ((⟨rest⟩ : DisjointSequences).insert value).1.sequences⟩,
          ((⟨rest⟩ : DisjointSequences).insert value).2)) ∨
    (∃ next rest', rest = next :: rest' ∧ value + 1 = sequence.low ∧ next.high + 1 = value ∧
      (⟨sequence :: rest⟩ : DisjointSequences).insert value = (⟨⟨sequence.high, next.low⟩ :: rest'⟩, true)) ∨
    (value + 1 = sequence.low ∧ (∀ next ∈ rest.head?, next.high + 1 ≠ value) ∧
      (⟨sequence :: rest⟩ : DisjointSequences).insert value = (⟨⟨sequence.high, value⟩ :: rest⟩, true)) := by
  by_cases next : value = sequence.high + 1
  · exact .inl ⟨next, insert_cons_of_next next⟩
  by_cases inside : sequence.low ≤ value ∧ value ≤ sequence.high
  · exact .inr (.inl ⟨inside.1, inside.2, insert_cons_of_inside inside⟩)
  by_cases above : sequence.high + 1 < value
  · exact .inr (.inr (.inl ⟨above, insert_cons_of_above ordered above⟩))
  by_cases below : value + 1 < sequence.low
  · exact .inr (.inr (.inr (.inl ⟨below, insert_cons_of_below ordered below⟩)))
  -- what is left is the value just below the run
  have previous : value + 1 = sequence.low := by omega
  rw [insert_cons_of_previous ordered previous]
  cases rest with
  | nil => exact .inr (.inr (.inr (.inr (.inr ⟨previous, by simp, rfl⟩))))
  | cons next rest =>
    by_cases touches : next.high + 1 = value
    · exact .inr (.inr (.inr (.inr (.inl ⟨next, rest, rfl, previous, touches, by simp [touches]⟩))))
    · exact .inr (.inr (.inr (.inr (.inr ⟨previous, by simpa using touches, by simp [touches]⟩))))

end Insert

end DisjointSequences

section Canonical

variable {sequence : Sequence} {rest : List Sequence}

theorem Below.mono {bound bound' : Nat} {sequences : List Sequence} (below : Below bound sequences)
    (le : bound ≤ bound') : Below bound' sequences :=
  fun sequence member => Nat.lt_of_lt_of_le (below sequence member) le

@[simp] theorem below_nil (bound : Nat) : Below bound [] := by simp [Below]

@[simp] theorem below_cons {bound : Nat} :
    Below bound (sequence :: rest) ↔ sequence.high + 1 < bound ∧ Below bound rest := by
  simp [Below]

theorem Canonical.tail (canonical : Canonical (sequence :: rest)) : Canonical rest :=
  ⟨fun other member => canonical.ordered other (List.mem_cons_of_mem _ member), canonical.gaps.tail⟩

/-- A canonical list lies below its first run. By induction on the runs after it, each gap
adding to the one before. -/
theorem Canonical.below_head (canonical : Canonical (sequence :: rest)) : Below sequence.low rest := by
  induction rest generalizing sequence with
  | nil => simp [Below]
  | cons next rest ih =>
    have gap : next.high + 1 < sequence.low := (List.isChain_cons_cons.mp canonical.gaps).1
    have nextOrdered : next.low ≤ next.high := canonical.ordered next (by simp)
    have belowNext : Below next.low rest := ih canonical.tail
    intro other member
    rcases List.mem_cons.mp member with rfl | later
    · exact gap
    · have := belowNext other later
      omega

theorem Canonical.cons (ordered : sequence.low ≤ sequence.high) (below : Below sequence.low rest)
    (canonical : Canonical rest) : Canonical (sequence :: rest) := by
  refine ⟨?_, ?_⟩
  · intro other member
    rcases List.mem_cons.mp member with rfl | later
    · exact ordered
    · exact canonical.ordered other later
  · cases rest with
    | nil => exact .singleton _
    | cons next rest => exact .cons_cons (below next (by simp)) canonical.gaps

theorem canonical_cons_iff :
    Canonical (sequence :: rest) ↔ sequence.low ≤ sequence.high ∧ Below sequence.low rest ∧ Canonical rest :=
  ⟨fun canonical => ⟨canonical.ordered sequence (by simp), canonical.below_head, canonical.tail⟩,
    fun ⟨ordered, below, canonical⟩ => Canonical.cons ordered below canonical⟩

end Canonical


namespace DisjointSequences

section Contains

variable {sequence : Sequence} {rest : List Sequence} {value : Nat}

@[simp] theorem contains_nil (value : Nat) : (⟨[]⟩ : DisjointSequences).contains value = false := rfl

theorem contains_cons :
    (⟨sequence :: rest⟩ : DisjointSequences).contains value =
      (decide (sequence.low ≤ value ∧ value ≤ sequence.high) || (⟨rest⟩ : DisjointSequences).contains value) := by
  simp [contains]

theorem contains_iff (disjointSequences : DisjointSequences) :
    disjointSequences.contains value = true ↔
      ∃ sequence ∈ disjointSequences.sequences, sequence.low ≤ value ∧ value ≤ sequence.high := by
  simp [contains]

theorem contains_eq_false_of_below {bound : Nat} (below : Below bound rest) (atLeast : bound ≤ value + 1) :
    (⟨rest⟩ : DisjointSequences).contains value = false := by
  simp only [contains, List.any_eq_false]
  intro other member
  have ends := below other member
  simp only [ge_iff_le, Bool.and_eq_true, decide_eq_true_eq, not_and, Nat.not_le]
  omega

end Contains

section InsertSpec

variable {value : Nat}

/-- The runs `insert` leaves end where the old ones did, or at the value. By induction on the
runs. -/
theorem insert_below {bound : Nat} {sequences : List Sequence} (canonical : Canonical sequences)
    (below : Below bound sequences) (fits : value + 1 < bound) :
    Below bound ((⟨sequences⟩ : DisjointSequences).insert value).1.sequences := by
  induction sequences with
  | nil => simpa [Sequence.single] using fits
  | cons sequence rest ih =>
    have ordered := canonical.ordered sequence (by simp)
    rw [below_cons] at below
    rcases @insert_cons_cases sequence rest value ordered with
      ⟨_, inserted⟩ | ⟨_, _, inserted⟩ | ⟨_, inserted⟩ | ⟨_, inserted⟩ |
      ⟨next, rest', rfl, _, _, inserted⟩ | ⟨_, _, inserted⟩ <;> rw [inserted]
    · exact below_cons.mpr ⟨fits, below.2⟩
    · exact below_cons.mpr below
    · exact below_cons.mpr ⟨by simpa [Sequence.single] using fits, below_cons.mpr below⟩
    · exact below_cons.mpr ⟨below.1, ih canonical.tail below.2⟩
    · exact below_cons.mpr ⟨below.1, (below_cons.mp below.2).2⟩
    · exact below_cons.mpr below

/-- `insert` keeps the runs canonical. By induction on the runs, one case for each way the
value meets the first one. -/
theorem insert_canonical {sequences : List Sequence} (canonical : Canonical sequences) :
    Canonical ((⟨sequences⟩ : DisjointSequences).insert value).1.sequences := by
  induction sequences with
  | nil => exact Canonical.cons (by simp [Sequence.single]) (by simp) ⟨by simp, .nil⟩
  | cons sequence rest ih =>
    obtain ⟨ordered, below, canonicalRest⟩ := canonical_cons_iff.mp canonical
    rcases @insert_cons_cases sequence rest value ordered with
      ⟨next, inserted⟩ | ⟨_, _, inserted⟩ | ⟨above, inserted⟩ | ⟨belowRun, inserted⟩ |
      ⟨next, rest', rfl, previous, touches, inserted⟩ | ⟨previous, apart, inserted⟩ <;> rw [inserted]
    · exact Canonical.cons (by simp only; omega) below canonicalRest
    · exact canonical
    · have raised : sequence.low ≤ (Sequence.single value).low := by
        simp only [Sequence.single]
        omega
      exact Canonical.cons (by simp [Sequence.single]) (below_cons.mpr ⟨above, below.mono raised⟩) canonical
    · exact Canonical.cons ordered (insert_below canonicalRest below belowRun) (ih canonicalRest)
    · -- the next run is taken in: the merged run starts where it did
      obtain ⟨nextOrdered, belowNext, canonicalRest'⟩ := canonical_cons_iff.mp canonicalRest
      exact Canonical.cons (by simp only; omega) belowNext canonicalRest'
    · -- the next run, if any, ends below the value with a gap
      refine Canonical.cons (by simp only; omega) ?_ canonicalRest
      cases rest with
      | nil => simp
      | cons next rest' =>
        obtain ⟨nextOrdered, belowNext, _⟩ := canonical_cons_iff.mp canonicalRest
        have nextApart := apart next (by simp)
        have nextBelow := (below_cons.mp below).1
        exact below_cons.mpr ⟨by simp only; omega, belowNext.mono (by simp only; omega)⟩

/-- `insert` adds the value and nothing else. By induction on the runs. -/
theorem insert_contains {sequences : List Sequence} (canonical : Canonical sequences) (other : Nat) :
    ((⟨sequences⟩ : DisjointSequences).insert value).1.contains other = true ↔
      (⟨sequences⟩ : DisjointSequences).contains other = true ∨ other = value := by
  induction sequences with
  | nil =>
    simp only [insert_nil, contains_cons, contains_nil, Sequence.single, Bool.or_false, decide_eq_true_eq,
      Bool.false_eq_true, false_or]
    omega
  | cons sequence rest ih =>
    obtain ⟨ordered, below, canonicalRest⟩ := canonical_cons_iff.mp canonical
    rcases @insert_cons_cases sequence rest value ordered with
      ⟨next, inserted⟩ | ⟨_, _, inserted⟩ | ⟨above, inserted⟩ | ⟨belowRun, inserted⟩ |
      ⟨next, rest', rfl, previous, touches, inserted⟩ | ⟨previous, _, inserted⟩ <;>
      rw [inserted] <;> simp only [contains_cons, Bool.or_eq_true, decide_eq_true_eq]
    · by_cases later : (⟨rest⟩ : DisjointSequences).contains other = true
      · simp only [later, or_true, true_or]
      · simp only [later, Bool.false_eq_true, or_false]
        omega
    · by_cases later : (⟨rest⟩ : DisjointSequences).contains other = true
      · simp only [later, or_true, true_or]
      · simp only [later, Bool.false_eq_true, or_false]
        omega
    · by_cases later : (⟨rest⟩ : DisjointSequences).contains other = true
      · simp only [later, or_true, true_or]
      · simp only [Sequence.single, later, Bool.false_eq_true, or_false]
        omega
    · rw [ih canonicalRest]
      tauto
    · -- the merged run covers the next run, the value and the old run
      have nextOrdered := canonicalRest.ordered next (by simp)
      by_cases later : (⟨rest'⟩ : DisjointSequences).contains other = true
      · simp only [later, or_true, true_or]
      · simp only [later, Bool.false_eq_true, or_false]
        omega
    · by_cases later : (⟨rest⟩ : DisjointSequences).contains other = true
      · simp only [later, or_true, true_or]
      · simp only [later, Bool.false_eq_true, or_false]
        omega

theorem insert_added {sequences : List Sequence} (canonical : Canonical sequences) :
    ((⟨sequences⟩ : DisjointSequences).insert value).2 = !(⟨sequences⟩ : DisjointSequences).contains value := by
  induction sequences with
  | nil => rfl
  | cons sequence rest ih =>
    obtain ⟨ordered, below, canonicalRest⟩ := canonical_cons_iff.mp canonical
    rcases @insert_cons_cases sequence rest value ordered with
      ⟨next, inserted⟩ | ⟨inLow, inHigh, inserted⟩ | ⟨above, inserted⟩ | ⟨belowRun, inserted⟩ |
      ⟨next, rest', rfl, previous, touches, inserted⟩ | ⟨previous, _, inserted⟩ <;> rw [inserted]
    · -- every later run ends below the first, so below the value
      have absent : (⟨rest⟩ : DisjointSequences).contains value = false :=
        contains_eq_false_of_below below (by omega)
      simp [contains_cons, absent]
      omega
    · simp [contains_cons, inLow, inHigh]
    · have absent : (⟨rest⟩ : DisjointSequences).contains value = false :=
        contains_eq_false_of_below below (by omega)
      simp [contains_cons, absent]
      omega
    · have outside : ¬ (sequence.low ≤ value ∧ value ≤ sequence.high) := by omega
      rw [ih canonicalRest, contains_cons, decide_eq_false outside, Bool.false_or]
    · have absent : (⟨next :: rest'⟩ : DisjointSequences).contains value = false :=
        contains_eq_false_of_below below (by omega)
      simp [contains_cons, absent]
      omega
    · have absent : (⟨rest⟩ : DisjointSequences).contains value = false :=
        contains_eq_false_of_below below (by omega)
      simp [contains_cons, absent]
      omega

end InsertSpec

section Truncate

variable (maxValue : Nat)

theorem mem_truncate {sequences : List Sequence} {kept : Sequence} :
    kept ∈ ((⟨sequences⟩ : DisjointSequences).truncate maxValue).sequences ↔
      ∃ sequence ∈ sequences, (if sequence.high ≤ maxValue then some sequence
        else if sequence.low > maxValue then none else some { sequence with high := maxValue }) = some kept :=
  List.mem_filterMap

theorem truncate_below {bound : Nat} {sequences : List Sequence} (below : Below bound sequences) :
    Below bound ((⟨sequences⟩ : DisjointSequences).truncate maxValue).sequences := by
  intro kept member
  obtain ⟨sequence, listed, cut⟩ := (mem_truncate maxValue).mp member
  have ends := below sequence listed
  split_ifs at cut with within outside
  · cases cut
    exact ends
  · cases cut
    simp only
    omega

theorem truncate_cons (sequence : Sequence) (rest : List Sequence) :
    ((⟨sequence :: rest⟩ : DisjointSequences).truncate maxValue).sequences =
      if sequence.high ≤ maxValue then sequence :: ((⟨rest⟩ : DisjointSequences).truncate maxValue).sequences
      else if sequence.low > maxValue then ((⟨rest⟩ : DisjointSequences).truncate maxValue).sequences
      else { sequence with high := maxValue } :: ((⟨rest⟩ : DisjointSequences).truncate maxValue).sequences := by
  simp only [truncate, List.filterMap_cons]
  split_ifs <;> rfl

/-- `truncate` keeps the runs canonical. By induction on the runs. -/
theorem truncate_canonical {sequences : List Sequence} (canonical : Canonical sequences) :
    Canonical ((⟨sequences⟩ : DisjointSequences).truncate maxValue).sequences := by
  induction sequences with
  | nil => exact canonical
  | cons sequence rest ih =>
    obtain ⟨ordered, below, canonicalRest⟩ := canonical_cons_iff.mp canonical
    have truncatedBelow := truncate_below maxValue below
    rw [truncate_cons]
    split_ifs with within outside
    · exact Canonical.cons ordered truncatedBelow (ih canonicalRest)
    · exact ih canonicalRest
    · exact Canonical.cons (by simp only; omega) truncatedBelow (ih canonicalRest)

theorem truncate_contains (sequences : List Sequence) (value : Nat) :
    ((⟨sequences⟩ : DisjointSequences).truncate maxValue).contains value = true ↔
      (⟨sequences⟩ : DisjointSequences).contains value = true ∧ value ≤ maxValue := by
  simp only [contains_iff]
  constructor
  · rintro ⟨kept, member, low, high⟩
    obtain ⟨sequence, listed, cut⟩ := (mem_truncate maxValue).mp member
    split_ifs at cut with within outside
    · cases cut
      exact ⟨⟨kept, listed, low, high⟩, by omega⟩
    · cases cut
      exact ⟨⟨sequence, listed, low, by simp only at high; omega⟩, high⟩
  · rintro ⟨⟨sequence, listed, low, high⟩, bounded⟩
    by_cases within : sequence.high ≤ maxValue
    · exact ⟨sequence, (mem_truncate maxValue).mpr ⟨sequence, listed, if_pos within⟩, low, high⟩
    · have notAbove : ¬ sequence.low > maxValue := by omega
      refine ⟨{ sequence with high := maxValue }, (mem_truncate maxValue).mpr ⟨sequence, listed, ?_⟩, low, bounded⟩
      rw [if_neg within, if_neg notAbove]

end Truncate

section FromVec

theorem mem_of_consecutive {low value : Nat} {rest : List Nat}
    (consecutive : (low :: rest).IsChain fun low high => high = low + 1) :
    value ∈ low :: rest ↔ low ≤ value ∧ value ≤ (low :: rest).getLast (List.cons_ne_nil _ _) := by
  induction rest generalizing low value with
  | nil =>
    simp only [List.mem_singleton, List.getLast_singleton]
    omega
  | cons next rest ih =>
    obtain ⟨step, consecutiveRest⟩ := List.isChain_cons_cons.mp consecutive
    have nextLast := (ih consecutiveRest).mp List.mem_cons_self
    rw [List.mem_cons, ih consecutiveRest, List.getLast_cons (List.cons_ne_nil _ _)]
    omega

/-- What the inner loop returns: it took every value, each one more than the last. By
induction on the fuel; a value that does not extend the run is peeked at again, so the loop
returns only past the last value. -/
theorem extendSequence_eq_some {fuel : Nat} {sequence : Sequence} {rest : List Nat} {result : Sequence × List Nat}
    (returned : extendSequence fuel sequence rest = some result) :
    (sequence.high :: rest).IsChain (fun low high => high = low + 1) ∧
      result = (⟨(sequence.high :: rest).getLast (List.cons_ne_nil _ _), sequence.low⟩, []) := by
  induction fuel generalizing sequence rest with
  | zero => cases returned
  | succ fuel ih =>
    cases rest with
    | nil =>
      simp only [extendSequence, Option.some.injEq] at returned
      subst returned
      exact ⟨.singleton _, rfl⟩
    | cons next rest =>
      simp only [extendSequence] at returned
      split_ifs at returned with taken
      · obtain ⟨consecutive, shape⟩ := ih returned
        refine ⟨.cons_cons taken consecutive, ?_⟩
        rw [shape, List.getLast_cons (List.cons_ne_nil _ _)]
      · exact absurd (List.isChain_cons_cons.mp (ih returned).1).1 taken

/-- On consecutive values the inner loop takes them all. By induction on the values. -/
theorem extendSequence_of_consecutive {sequence : Sequence} {rest : List Nat}
    (consecutive : (sequence.high :: rest).IsChain fun low high => high = low + 1) :
    extendSequence (rest.length + 1) sequence rest =
      some (⟨(sequence.high :: rest).getLast (List.cons_ne_nil _ _), sequence.low⟩, []) := by
  induction rest generalizing sequence with
  | nil => rfl
  | cons next rest ih =>
    obtain ⟨taken, consecutiveRest⟩ := List.isChain_cons_cons.mp consecutive
    rw [List.length_cons, extendSequence, if_pos taken, List.getLast_cons (List.cons_ne_nil _ _)]
    exact ih consecutiveRest

theorem batchSequences_eq_some {fuel : Nat} {values : List Nat} {sequences : List Sequence}
    (returned : batchSequences fuel values = some sequences) :
    values.IsChain (fun low high => high = low + 1) ∧ (values = [] → sequences = []) ∧
      ∀ low rest, values = low :: rest → sequences = [⟨(low :: rest).getLast (List.cons_ne_nil _ _), low⟩] := by
  cases fuel with
  | zero => cases returned
  | succ fuel =>
    cases values with
    | nil =>
      simp only [batchSequences, Option.some.injEq] at returned
      exact ⟨.nil, fun _ => returned.symm, fun _ _ absurd => nomatch absurd⟩
    | cons low rest =>
      simp only [batchSequences, Option.bind_eq_bind, Option.bind_eq_some_iff, Option.pure_def,
        Option.some.injEq] at returned
      obtain ⟨⟨sequence, left⟩, extended, batched, restBatched, rfl⟩ := returned
      obtain ⟨consecutive, shape⟩ := extendSequence_eq_some extended
      simp only [Sequence.single, Prod.mk.injEq] at shape
      obtain ⟨rfl, rfl⟩ := shape
      have noMore : batched = [] := by
        cases fuel with
        | zero => cases restBatched
        | succ fuel => simpa [batchSequences] using restBatched.symm
      subst noMore
      refine ⟨consecutive, fun empty => absurd empty (List.cons_ne_nil _ _), fun low' rest' same => ?_⟩
      obtain ⟨rfl, rfl⟩ := List.cons.inj same
      rfl

theorem batchSequences_of_consecutive {values : List Nat}
    (consecutive : values.IsChain fun low high => high = low + 1) :
    (batchSequences (values.length + 1) values).isSome := by
  cases values with
  | nil => rfl
  | cons low rest =>
    have extended := @extendSequence_of_consecutive (.single low) rest consecutive
    simp only [List.length_cons, batchSequences, extended]
    rfl

end FromVec

/-- On canonical runs, `insert` reports whether the value was new and `truncate` cuts at
`max_value`; both leave the canonical runs of the new set. The heights are `u64`: with every run
ending below `u64::MAX` and the value below it, no `+ 1` of `try_insert` or of the merge in
`insert` wraps, and both operations keep the runs so. -/
theorem insert_truncate_keep_canonical {disjointSequences : DisjointSequences}
    (canonical : Canonical disjointSequences.sequences) (bounded : Below (2 ^ 64) disjointSequences.sequences)
    (value maxValue : Nat) (fits : value + 1 < 2 ^ 64) :
    ((disjointSequences.insert value).2 = !disjointSequences.contains value ∧
      Canonical (disjointSequences.insert value).1.sequences ∧
      Below (2 ^ 64) (disjointSequences.insert value).1.sequences ∧
      ∀ other, (disjointSequences.insert value).1.contains other = true ↔
        disjointSequences.contains other = true ∨ other = value) ∧
    (Canonical (disjointSequences.truncate maxValue).sequences ∧
      Below (2 ^ 64) (disjointSequences.truncate maxValue).sequences ∧
      ∀ other, (disjointSequences.truncate maxValue).contains other = true ↔
        disjointSequences.contains other = true ∧ other ≤ maxValue) := by
  obtain ⟨sequences⟩ := disjointSequences
  exact ⟨⟨DisjointSequences.insert_added canonical, DisjointSequences.insert_canonical canonical,
      DisjointSequences.insert_below canonical bounded fits, DisjointSequences.insert_contains canonical⟩,
    DisjointSequences.truncate_canonical maxValue canonical, DisjointSequences.truncate_below maxValue bounded,
    DisjointSequences.truncate_contains maxValue sequences⟩

theorem insert_truncate_keep_canonical_on_two_runs :
    Canonical [⟨9, 8⟩, ⟨6, 3⟩] ∧ Below (2 ^ 64) [⟨9, 8⟩, ⟨6, 3⟩] ∧
      ((⟨[⟨9, 8⟩, ⟨6, 3⟩]⟩ : DisjointSequences).insert 7).2 = true ∧
      Canonical ((⟨[⟨9, 8⟩, ⟨6, 3⟩]⟩ : DisjointSequences).insert 7).1.sequences :=
  have kept := @insert_truncate_keep_canonical ⟨[⟨9, 8⟩, ⟨6, 3⟩]⟩ (by decide) (by simp [Below]) 7 5 (by norm_num)
  ⟨by decide, by simp [Below], kept.1.1.trans (by decide), kept.1.2.1⟩

example : ((⟨[⟨9, 8⟩, ⟨6, 3⟩]⟩ : DisjointSequences).insert 7).1.sequences = [⟨9, 3⟩] := by decide

/-- `From<Vec<u64>>` returns exactly when the sorted values are one run of consecutive values,
and then with the canonical runs of the values. On two values with a gap, or a value twice,
the inner loop peeks at the same value forever. -/
theorem from_vec_returns_iff_one_run (input : List Nat) :
    ((∃ fuel, (DisjointSequences.ofVecWith fuel input).isSome) ↔
      (input.insertionSort (· ≤ ·)).IsChain fun low high => high = low + 1) ∧
    ∀ fuel disjointSequences, DisjointSequences.ofVecWith fuel input = some disjointSequences →
      Canonical disjointSequences.sequences ∧ ∀ value, disjointSequences.contains value = true ↔ value ∈ input := by
  have sorted := List.perm_insertionSort (· ≤ ·) input
  simp only [DisjointSequences.ofVecWith, Option.isSome_map, Option.map_eq_some_iff]
  generalize input.insertionSort (· ≤ ·) = values at sorted ⊢
  refine ⟨⟨?_, fun consecutive => ⟨_, DisjointSequences.batchSequences_of_consecutive consecutive⟩⟩, ?_⟩
  · rintro ⟨fuel, returned⟩
    obtain ⟨sequences, batched⟩ := Option.isSome_iff_exists.mp returned
    exact (DisjointSequences.batchSequences_eq_some batched).1
  · rintro fuel disjointSequences ⟨sequences, batched, rfl⟩
    obtain ⟨consecutive, none, one⟩ := DisjointSequences.batchSequences_eq_some batched
    cases values with
    | nil =>
      have empty : input = [] := List.Perm.eq_nil sorted.symm
      subst empty
      rw [none rfl]
      exact ⟨⟨by simp, .nil⟩, fun value => by simp⟩
    | cons low rest =>
      rw [one low rest rfl]
      -- one run, from the lowest value to the highest
      have spans := fun value => @DisjointSequences.mem_of_consecutive _ value _ consecutive
      have lowLast := ((spans low).mp List.mem_cons_self).2
      refine ⟨⟨by simpa using lowLast, .singleton _⟩, fun value => ?_⟩
      rw [← sorted.mem_iff, spans value]
      simp [DisjointSequences.contains]

theorem from_vec_never_returns_on_gap :
    (∀ fuel, DisjointSequences.ofVecWith fuel [0, 2] = none) ∧
      (DisjointSequences.default.extend [0, 2]).sequences = [⟨2, 2⟩, ⟨0, 0⟩] := by
  refine ⟨fun fuel => ?_, by decide⟩
  have notOneRun : ¬ ([0, 2].insertionSort (· ≤ ·)).IsChain fun low high => high = low + 1 := by decide
  exact Option.not_isSome_iff_eq_none.mp fun returned =>
    notOneRun ((from_vec_returns_iff_one_run [0, 2]).1.mp ⟨fuel, returned⟩)

end DisjointSequences

end Storage
