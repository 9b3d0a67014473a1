import Mathlib

/-!
Association lists as models of hash maps whose values are updated in place:
`setValue` is `get_mut` followed by an assignment, and `mapValues` is a loop
over `values_mut()` that also collects what each step returns. Lookups are
`List.lookup`, so only the first entry of a key is ever seen.
-/
namespace AssocList

variable {α β γ : Type} [DecidableEq α]

/-- Replace the value of the first entry for `key`. -/
def setValue (key : α) (value : β) : List (α × β) → List (α × β)
  | [] => []
  | (key', value') :: rest =>
    if key = key' then (key', value) :: rest else (key', value') :: setValue key value rest

theorem setValue_cons (key : α) (value : β) (key' : α) (value' : β) (rest : List (α × β)) :
    setValue key value ((key', value') :: rest) =
      if key = key' then (key', value) :: rest else (key', value') :: setValue key value rest := rfl

/-- `insert` of a map: replace the value of the first entry for `key`, or
append a new entry. -/
def insertValue (key : α) (value : β) : List (α × β) → List (α × β)
  | [] => [(key, value)]
  | (key', value') :: rest =>
    if key = key' then (key', value) :: rest else (key', value') :: insertValue key value rest

theorem insertValue_nil (key : α) (value : β) : insertValue key value [] = [(key, value)] := rfl

theorem insertValue_cons (key : α) (value : β) (key' : α) (value' : β) (rest : List (α × β)) :
    insertValue key value ((key', value') :: rest) =
      if key = key' then (key', value) :: rest else (key', value') :: insertValue key value rest := rfl

/-- Update every value in order, concatenating the outputs. -/
def mapValues (f : β → β × List γ) : List (α × β) → List (α × β) × List γ
  | [] => ([], [])
  | (key, value) :: rest =>
    ((key, (f value).1) :: (mapValues f rest).1, (f value).2 ++ (mapValues f rest).2)

omit [DecidableEq α] in
theorem mapValues_cons (f : β → β × List γ) (key : α) (value : β) (rest : List (α × β)) :
    mapValues f ((key, value) :: rest) =
      ((key, (f value).1) :: (mapValues f rest).1, (f value).2 ++ (mapValues f rest).2) := rfl

@[simp]
theorem lookup_cons_eq (key : α) (value : β) (rest : List (α × β)) :
    ((key, value) :: rest).lookup key = some value := by
  simp [List.lookup]

theorem lookup_cons_ne {key key' : α} (value : β) (rest : List (α × β)) (ne : key ≠ key') :
    ((key', value) :: rest).lookup key = rest.lookup key := by
  have differ : (key == key') = false := beq_false_of_ne ne
  simp [List.lookup, differ]

theorem lookup_setValue_self (key : α) (value : β) (entries : List (α × β)) :
    (setValue key value entries).lookup key = (entries.lookup key).map fun _ => value := by
  induction entries with
  | nil => rfl
  | cons entry rest ih =>
    obtain ⟨key', value'⟩ := entry
    by_cases same : key = key'
    · subst same
      simp [setValue_cons]
    · simp only [setValue_cons, same, if_false]
      rw [lookup_cons_ne _ _ same, lookup_cons_ne _ _ same, ih]

theorem lookup_setValue_ne {key other : α} (value : β) (entries : List (α × β)) (ne : other ≠ key) :
    (setValue key value entries).lookup other = entries.lookup other := by
  induction entries with
  | nil => rfl
  | cons entry rest ih =>
    obtain ⟨key', value'⟩ := entry
    by_cases same : key = key'
    · subst same
      simp only [setValue_cons, if_true]
      rw [lookup_cons_ne _ _ ne, lookup_cons_ne _ _ ne]
    · simp only [setValue_cons, same, if_false]
      by_cases hit : other = key'
      · subst hit
        simp
      · rw [lookup_cons_ne _ _ hit, lookup_cons_ne _ _ hit, ih]

theorem lookup_mapValues (f : β → β × List γ) (key : α) (entries : List (α × β)) :
    (mapValues f entries).1.lookup key = (entries.lookup key).map fun value => (f value).1 := by
  induction entries with
  | nil => rfl
  | cons entry rest ih =>
    obtain ⟨key', value'⟩ := entry
    by_cases hit : key = key'
    · subst hit
      simp [mapValues_cons]
    · simp only [mapValues_cons]
      rw [lookup_cons_ne _ _ hit, lookup_cons_ne _ _ hit, ih]

theorem lookup_insertValue_self (key : α) (value : β) (entries : List (α × β)) :
    (insertValue key value entries).lookup key = some value := by
  induction entries with
  | nil => simp [insertValue_nil]
  | cons entry rest ih =>
    obtain ⟨key', value'⟩ := entry
    by_cases same : key = key'
    · subst same
      simp [insertValue_cons]
    · simp only [insertValue_cons, same, if_false]
      rw [lookup_cons_ne _ _ same, ih]

theorem lookup_insertValue_ne {key other : α} (value : β) (entries : List (α × β))
    (ne : other ≠ key) : (insertValue key value entries).lookup other = entries.lookup other := by
  induction entries with
  | nil => simp [insertValue_nil, lookup_cons_ne _ _ ne]
  | cons entry rest ih =>
    obtain ⟨key', value'⟩ := entry
    by_cases same : key = key'
    · subst same
      simp only [insertValue_cons, if_true]
      rw [lookup_cons_ne _ _ ne, lookup_cons_ne _ _ ne]
    · simp only [insertValue_cons, same, if_false]
      by_cases hit : other = key'
      · subst hit
        simp
      · rw [lookup_cons_ne _ _ hit, lookup_cons_ne _ _ hit, ih]

theorem mem_of_lookup_eq_some {key : α} {value : β} {entries : List (α × β)}
    (found : entries.lookup key = some value) : (key, value) ∈ entries := by
  induction entries with
  | nil => simp at found
  | cons entry rest ih =>
    obtain ⟨key', value'⟩ := entry
    by_cases same : key = key'
    · subst same
      simp only [lookup_cons_eq, Option.some.injEq] at found
      simp [found]
    · rw [lookup_cons_ne _ _ same] at found
      exact List.mem_cons_of_mem _ (ih found)

theorem lookup_eq_none_of_not_mem {key : α} {entries : List (α × β)} (absent : key ∉ entries.map Prod.fst) :
    entries.lookup key = none := by
  induction entries with
  | nil => rfl
  | cons entry rest ih =>
    obtain ⟨key', value'⟩ := entry
    simp only [List.map_cons, List.mem_cons, not_or] at absent
    rw [lookup_cons_ne _ _ absent.1, ih absent.2]

theorem mem_keys_insertValue {key other : α} (value : β) (entries : List (α × β)) :
    other ∈ (insertValue key value entries).map Prod.fst ↔ other = key ∨ other ∈ entries.map Prod.fst := by
  induction entries with
  | nil => simp [insertValue_nil]
  | cons entry rest ih =>
    obtain ⟨key', value'⟩ := entry
    by_cases same : key = key'
    · subst same
      simp [insertValue_cons]
    · simp only [insertValue_cons, same, if_false, List.map_cons, List.mem_cons, ih]
      tauto

theorem nodup_keys_insertValue (key : α) (value : β) {entries : List (α × β)}
    (nodup : (entries.map Prod.fst).Nodup) : ((insertValue key value entries).map Prod.fst).Nodup := by
  induction entries with
  | nil => simp [insertValue_nil]
  | cons entry rest ih =>
    obtain ⟨key', value'⟩ := entry
    rw [List.map_cons, List.nodup_cons] at nodup
    by_cases same : key = key'
    · subst same
      simpa [insertValue_cons] using nodup
    · simp only [insertValue_cons, same, if_false, List.map_cons, List.nodup_cons, mem_keys_insertValue]
      exact ⟨fun fresh => fresh.elim (fun hit => same hit.symm) nodup.1, ih nodup.2⟩

/-- With distinct keys, looking up the keys that pass a test, in order, gives the values of
the entries that pass it. By induction on the entries; a later key never finds the head. -/
theorem filterMap_lookup_filter_keys (p : α → Bool) {entries : List (α × β)}
    (nodup : (entries.map Prod.fst).Nodup) :
    ((entries.map Prod.fst).filter p).filterMap (fun key => entries.lookup key) =
      (entries.filter fun entry => p entry.1).map Prod.snd := by
  induction entries with
  | nil => rfl
  | cons entry rest ih =>
    obtain ⟨key, value⟩ := entry
    rw [List.map_cons, List.nodup_cons] at nodup
    obtain ⟨fresh, nodupRest⟩ := nodup
    have restLookup : ∀ other ∈ (rest.map Prod.fst).filter p,
        ((key, value) :: rest).lookup other = rest.lookup other := by
      intro other member
      have differs : other ≠ key := fun same => fresh (same ▸ (List.mem_filter.mp member).1)
      exact lookup_cons_ne _ _ differs
    by_cases kept : p key = true
    · simp only [List.map_cons, List.filter_cons, kept, if_true, List.filterMap_cons, lookup_cons_eq]
      rw [List.filterMap_congr restLookup, ih nodupRest]
    · simp only [List.map_cons, List.filter_cons, kept, Bool.false_eq_true, if_false]
      rw [List.filterMap_congr restLookup, ih nodupRest]

/-- Replacing the value of a key trades what the old value contributes to a `flatMap` of the
values for what the new one contributes. -/
theorem perm_flatMap_setValue {δ : Type} (g : β → List δ) {key : α} {value : β} (value' : β)
    {entries : List (α × β)} (found : entries.lookup key = some value) :
    List.Perm ((setValue key value' entries).flatMap (fun entry => g entry.2) ++ g value)
      (entries.flatMap (fun entry => g entry.2) ++ g value') := by
  classical
  induction entries with
  | nil => simp at found
  | cons entry rest ih =>
    obtain ⟨key', value''⟩ := entry
    by_cases same : key = key'
    · subst same
      rw [lookup_cons_eq, Option.some.injEq] at found
      subst found
      simp only [setValue_cons, if_true, List.flatMap_cons]
      refine List.perm_iff_count.mpr fun item => ?_
      simp only [List.count_append]
      omega
    · rw [lookup_cons_ne _ _ same] at found
      simp only [setValue_cons, same, if_false, List.flatMap_cons, List.append_assoc]
      exact (ih found).append_left _

omit [DecidableEq α] in
/-- `mapValues` conserves a `flatMap` of the values together with what the steps output, when
each step does. -/
theorem perm_flatMap_mapValues {δ : Type} (f : β → β × List γ) (g : β → List δ)
    (p : γ → Option δ) (conserves : ∀ value, List.Perm (g (f value).1 ++ (f value).2.filterMap p) (g value))
    (entries : List (α × β)) :
    List.Perm ((mapValues f entries).1.flatMap (fun entry => g entry.2) ++ (mapValues f entries).2.filterMap p)
      (entries.flatMap fun entry => g entry.2) := by
  classical
  induction entries with
  | nil => rfl
  | cons entry rest ih =>
    obtain ⟨key, value⟩ := entry
    rw [mapValues_cons]
    refine List.perm_iff_count.mpr fun item => ?_
    have step := (conserves value).count_eq item
    have later := ih.count_eq item
    simp only [List.flatMap_cons, List.filterMap_append, List.count_append] at step later ⊢
    omega

theorem keys_setValue (key : α) (value : β) (entries : List (α × β)) :
    (setValue key value entries).map Prod.fst = entries.map Prod.fst := by
  induction entries with
  | nil => rfl
  | cons entry rest ih =>
    obtain ⟨key', value'⟩ := entry
    by_cases same : key = key'
    · simp [setValue_cons, same]
    · simp [setValue_cons, same, ih]

theorem sum_setValue {β : Type} [AddCommMonoid β] {key : α} {value : β} (value' : β)
    {entries : List (α × β)} (found : entries.lookup key = some value) :
    ((setValue key value' entries).map Prod.snd).sum + value = (entries.map Prod.snd).sum + value' := by
  induction entries with
  | nil => simp at found
  | cons entry rest ih =>
    obtain ⟨key', value''⟩ := entry
    by_cases same : key = key'
    · subst same
      simp only [lookup_cons_eq, Option.some.injEq] at found
      subst found
      simp only [setValue_cons, if_true, List.map_cons, List.sum_cons]
      abel
    · rw [lookup_cons_ne _ _ same] at found
      simp only [setValue_cons, same, if_false, List.map_cons, List.sum_cons]
      rw [add_assoc, ih found, add_assoc]

theorem insertValue_of_not_mem {key : α} (value : β) {entries : List (α × β)}
    (absent : key ∉ entries.map Prod.fst) : insertValue key value entries = entries ++ [(key, value)] := by
  induction entries with
  | nil => rfl
  | cons entry rest ih =>
    obtain ⟨key', value'⟩ := entry
    simp only [List.map_cons, List.mem_cons, not_or] at absent
    rw [insertValue_cons, if_neg absent.1, ih absent.2, List.cons_append]

end AssocList
