import Mathlib

/-!
A content-addressed store: a partial map from digests to values into which
every value is written under its own digest. With an injective digest
function such writes never change what the store holds under another digest,
so any value kept under its own digest survives every later write.
-/

namespace ContentStore

variable {α δ : Type}

/-- Every entry is written under its own digest. -/
def Addressed (hash : α → δ) (entries : List (δ × α)) : Prop :=
  ∀ entry ∈ entries, entry.1 = hash entry.2

/-- `store'` still holds every value that `store` holds under its own digest. -/
def Keeps (hash : α → δ) (store store' : δ → Option α) : Prop :=
  ∀ value, store (hash value) = some value → store' (hash value) = some value

/-- The store holds every entry. -/
def Contains (store : δ → Option α) (entries : List (δ × α)) : Prop :=
  ∀ entry ∈ entries, store entry.1 = some entry.2

@[simp] theorem addressed_nil (hash : α → δ) : Addressed hash [] := fun _ member => by cases member

theorem Addressed.cons {hash : α → δ} {entries : List (δ × α)} (addressed : Addressed hash entries) (value : α) :
    Addressed hash ((hash value, value) :: entries) := by
  intro entry member
  rcases List.mem_cons.mp member with rfl | later
  · rfl
  · exact addressed entry later

theorem Addressed.append {hash : α → δ} {entries entries' : List (δ × α)} (addressed : Addressed hash entries)
    (addressed' : Addressed hash entries') : Addressed hash (entries ++ entries') := by
  intro entry member
  rcases List.mem_append.mp member with early | late
  · exact addressed entry early
  · exact addressed' entry late

theorem Addressed.tail {hash : α → δ} {entry : δ × α} {entries : List (δ × α)}
    (addressed : Addressed hash (entry :: entries)) : Addressed hash entries :=
  fun other member => addressed other (List.mem_cons_of_mem _ member)

theorem Contains.mono {store : δ → Option α} {entries entries' : List (δ × α)}
    (contains : Contains store entries') (sub : entries ⊆ entries') : Contains store entries :=
  fun entry member => contains entry (sub member)

theorem Keeps.refl (hash : α → δ) (store : δ → Option α) : Keeps hash store store :=
  fun _ held => held

theorem Keeps.trans {hash : α → δ} {store store' store'' : δ → Option α}
    (first : Keeps hash store store') (second : Keeps hash store' store'') :
    Keeps hash store store'' :=
  fun value held => second value (first value held)

variable [DecidableEq δ]

def put (store : δ → Option α) (digest : δ) (value : α) : δ → Option α :=
  Function.update store digest (some value)

/-- Writes the entries in order. -/
def putAll (store : δ → Option α) (entries : List (δ × α)) : δ → Option α :=
  entries.foldl (fun store entry => put store entry.1 entry.2) store

@[simp] theorem putAll_nil (store : δ → Option α) : putAll store [] = store := rfl

theorem putAll_cons (store : δ → Option α) (entry : δ × α) (entries : List (δ × α)) :
    putAll store (entry :: entries) = putAll (put store entry.1 entry.2) entries := rfl

section Injective

variable {hash : α → δ} (injective : Function.Injective hash)
include injective

theorem keeps_put (store : δ → Option α) (value : α) :
    Keeps hash store (put store (hash value) value) := by
  intro kept held
  by_cases same : hash kept = hash value
  · rw [injective same]
    simp [put]
  · simp [put, same, held]

theorem keeps_putAll (store : δ → Option α) {entries : List (δ × α)}
    (addressed : Addressed hash entries) : Keeps hash store (putAll store entries) := by
  induction entries generalizing store with
  | nil => exact Keeps.refl hash store
  | cons entry entries ih =>
    have first : entry.1 = hash entry.2 := addressed entry (List.mem_cons_self ..)
    rw [putAll_cons, first]
    exact (keeps_put injective store entry.2).trans (ih _ addressed.tail)

theorem putAll_of_mem (store : δ → Option α) {entries : List (δ × α)}
    (addressed : Addressed hash entries) {entry : δ × α} (member : entry ∈ entries) :
    putAll store entries entry.1 = some entry.2 := by
  induction entries generalizing store with
  | nil => cases member
  | cons first entries ih =>
    rw [putAll_cons]
    rcases List.mem_cons.mp member with same | later
    · subst same
      rw [addressed entry (List.mem_cons_self ..)]
      apply keeps_putAll injective _ addressed.tail
      simp [put]
    · exact ih _ addressed.tail later

theorem contains_putAll (store : δ → Option α) {entries : List (δ × α)}
    (addressed : Addressed hash entries) : Contains (putAll store entries) entries :=
  fun _ member => putAll_of_mem injective store addressed member

end Injective

end ContentStore
