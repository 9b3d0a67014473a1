import Mathlib

/-!
Prefixes of lists, as a path in a radix tree reads them: the byte after a
prefix, and slices compared against an affix.
-/

namespace List

variable {α : Type}

theorem append_singleton_prefix_iff {path list : List α} {next : α} :
    path ++ [next] <+: list ↔ path <+: list ∧ list[path.length]? = some next := by
  constructor
  · rintro ⟨rest, rfl⟩
    exact ⟨(prefix_append path [next]).trans (prefix_append _ rest), by simp⟩
  · rintro ⟨⟨rest, rfl⟩, found⟩
    cases rest with
    | nil => simp at found
    | cons head rest =>
      simp only [getElem?_append_right (Nat.le_refl _), Nat.sub_self, getElem?_cons_zero,
        Option.some.injEq] at found
      subst found
      exact ⟨rest, by simp⟩

theorem prefix_append_getElem {path list : List α} (onPath : path <+: list)
    (shorter : path.length < list.length) : path ++ [list[path.length]] <+: list :=
  append_singleton_prefix_iff.mpr ⟨onPath, getElem?_eq_getElem shorter⟩

theorem eq_of_append_singleton_prefixes {path list : List α} {next other : α}
    (first : path ++ [next] <+: list) (second : path ++ [other] <+: list) : next = other := by
  have atNext := (append_singleton_prefix_iff.mp first).2
  rw [(append_singleton_prefix_iff.mp second).2] at atNext
  exact (Option.some.inj atNext).symm

theorem drop_take_eq_iff {path list affix : List α} (onPath : path <+: list) :
    (list.drop path.length).take affix.length = affix ↔ path ++ affix <+: list := by
  obtain ⟨rest, rfl⟩ := onPath
  rw [drop_left, prefix_append_right_inj]
  constructor
  · intro taken
    rw [← taken]
    exact take_prefix _ _
  · rintro ⟨tail, rfl⟩
    simp

theorem head?_eq_of_prefix_of_ne_nil {path list : List α} (onPath : path <+: list) (nonempty : path ≠ []) :
    list.head? = path.head? := by
  obtain ⟨rest, rfl⟩ := onPath
  cases path with
  | nil => exact absurd rfl nonempty
  | cons head tail => rfl

theorem IsPrefix.of_append_left {path affix list : List α} (onPath : path ++ affix <+: list) :
    path <+: list :=
  (prefix_append path affix).trans onPath

theorem prefix_append_head (path : List α) {affix : List α} (nonempty : affix ≠ []) :
    path ++ [affix.head nonempty] <+: path ++ affix := by
  obtain ⟨first, rest, rfl⟩ := exists_cons_of_ne_nil nonempty
  simp

theorem lt_of_prefixes_append_singleton [LT α] {path list other : List α} {next next' : α}
    (onNext : path ++ [next] <+: list) (onNext' : path ++ [next'] <+: other) (less : next < next') :
    list < other := by
  obtain ⟨rest, rfl⟩ := onNext
  obtain ⟨rest', rfl⟩ := onNext'
  induction path with
  | nil => exact Lex.rel less
  | cons head path ih => exact Lex.cons ih

section Descend

variable {path affix list descend : List α}

/-- A list below `path ++ affix` and below `path ++ descend` agrees with `affix` on the
part of `descend` that the affix covers. -/
theorem take_min_prefix_of_prefixes (onAffix : path ++ affix <+: list) (onDescend : path ++ descend <+: list) :
    descend.take (min descend.length affix.length) <+: affix := by
  have taken : descend.take (min descend.length affix.length) <+: descend := take_prefix _ _
  have shorter : path ++ descend.take (min descend.length affix.length) <+: list :=
    ((prefix_append_right_inj path).mpr taken).trans onDescend
  have within := prefix_of_prefix_length_le shorter onAffix (by simp only [length_append, length_take]; omega)
  exact (prefix_append_right_inj path).mp within

/-- Past an affix that agrees with the covered part of `descend`, what is left of
`descend` leads below `path ++ descend` exactly. -/
theorem append_drop_min_prefix_iff (agrees : descend.take (min descend.length affix.length) <+: affix)
    (onAffix : path ++ affix <+: list) :
    path ++ affix ++ descend.drop (min descend.length affix.length) <+: list ↔ path ++ descend <+: list := by
  rcases Nat.le_total descend.length affix.length with shorter | longer
  · -- the affix covers all of `descend`
    rw [Nat.min_eq_left shorter, take_of_length_le (Nat.le_refl _)] at agrees
    rw [Nat.min_eq_left shorter, drop_of_length_le (Nat.le_refl _), append_nil]
    exact ⟨fun _ => ((prefix_append_right_inj path).mpr agrees).trans onAffix, fun _ => onAffix⟩
  · rw [Nat.min_eq_right longer] at agrees ⊢
    have whole : descend.take affix.length = affix := agrees.eq_of_length (by simp [longer])
    conv_rhs => rw [← take_append_drop affix.length descend, whole]
    rw [append_assoc]

end Descend

end List
