import Mathlib

/-!
Pruning a committee down to the greatest sub-committee that supports itself. Each round tests
every member against the whole committee and removes at once all that fail; the rounds stop
when nobody fails. The test may fail itself (`none`, a panic of the caller).

What the rounds return passes the test against itself and leaves the others pruned
(`rounds_sound`). When the test only gains members as the committee grows (along sub-multisets
of the sub-committees met), every self-supporting sub-collection of the start survives each
round, so what remains is the greatest one (`rounds_greatest`). A round that goes on removes a
member, so the rounds end once the fuel exceeds the committee's length (`rounds_isSome`).
-/

namespace Pruning

variable {α : Type}

/-- The test answered `true`. -/
def accepts (test : α → Option Bool) (x : α) : Bool := test x == some true

@[simp] theorem accepts_eq_true {test : α → Option Bool} {x : α} :
    accepts test x = true ↔ test x = some true := beq_iff_eq

/-- `Iterator::partition` by a test that may fail, in the order of the list. -/
def partitionSome (test : α → Option Bool) : List α → Option (List α × List α)
  | [] => some ([], [])
  | x :: xs => do
    let accepted ← test x
    let rest ← partitionSome test xs
    pure (if accepted then (x :: rest.1, rest.2) else (rest.1, x :: rest.2))

/-- When it returns, `partitionSome` has the two halves of `List.partition`, every test having
answered. -/
theorem partitionSome_eq_some {test : α → Option Bool} :
    ∀ {l : List α} {split : List α × List α}, partitionSome test l = some split →
      split = (l.filter (accepts test), l.filter fun x => !accepts test x) ∧
        ∀ x ∈ l, (test x).isSome := by
  intro l
  induction l with
  | nil =>
    intro split computed
    cases computed
    exact ⟨rfl, fun _ member => nomatch member⟩
  | cons x xs ih =>
    intro split computed
    obtain ⟨accepted, tested, computed⟩ := Option.bind_eq_some_iff.mp computed
    obtain ⟨rest, restComputed, computed⟩ := Option.bind_eq_some_iff.mp computed
    obtain ⟨rfl, restTested⟩ := ih restComputed
    cases computed
    constructor
    · cases accepted <;> simp [accepts, tested]
    · intro y member
      rcases List.mem_cons.mp member with rfl | later
      · rw [tested]
        rfl
      · exact restTested y later

theorem partitionSome_of_isSome {test : α → Option Bool} :
    ∀ {l : List α}, (∀ x ∈ l, (test x).isSome) → ∃ split, partitionSome test l = some split := by
  intro l
  induction l with
  | nil => intro _; exact ⟨_, rfl⟩
  | cons x xs ih =>
    intro answered
    obtain ⟨accepted, tested⟩ := Option.isSome_iff_exists.mp (answered x List.mem_cons_self)
    obtain ⟨rest, restComputed⟩ := ih fun y member => answered y (List.mem_cons_of_mem _ member)
    refine ⟨if accepted then (x :: rest.1, rest.2) else (rest.1, x :: rest.2), ?_⟩
    simp only [partitionSome, tested, restComputed, Option.bind_eq_bind, Option.bind_some]
    rfl

variable (keep : List α → α → Option Bool)

/-- The rounds: split the committee by `keep` against the whole committee; stop when nobody is
rejected, and otherwise go on with those accepted, adding the rejected to `pruned`. -/
def rounds : Nat → List α → List α → Option (List α × List α)
  | 0, _, _ => none
  | fuel + 1, committee, pruned => do
    let split ← partitionSome (keep committee) committee
    if split.2.isEmpty then pure (split.1, pruned)
    else rounds fuel split.1 (pruned ++ split.2)

variable {keep}

/-- The rounds return a sublist of the committee whose members all pass against it, and prune
exactly the members of the committee they do not keep. -/
theorem rounds_sound : ∀ {fuel : Nat} {committee pruned : List α} {result : List α × List α},
    rounds keep fuel committee pruned = some result →
      result.1.Sublist committee ∧ (∀ x ∈ result.1, keep result.1 x = some true) ∧
        ∀ v, v ∈ result.2 ↔ v ∈ pruned ∨ (v ∈ committee ∧ v ∉ result.1) := by
  intro fuel
  induction fuel with
  | zero => intro _ _ _ computed; cases computed
  | succ fuel ih =>
    intro committee pruned result computed
    obtain ⟨split, partitioned, computed⟩ := Option.bind_eq_some_iff.mp computed
    obtain ⟨rfl, _⟩ := partitionSome_eq_some partitioned
    dsimp only at computed
    split_ifs at computed with nobody
    · -- nobody was rejected: the committee is kept whole
      cases computed
      have all : ∀ x ∈ committee, accepts (keep committee) x = true := by
        intro x member
        by_contra rejected
        have flipped : (!accepts (keep committee) x) = true := by
          simp only [Bool.not_eq_true', Bool.eq_false_iff, ne_eq]
          exact rejected
        have dropped : x ∈ committee.filter fun x => !accepts (keep committee) x :=
          List.mem_filter.mpr ⟨member, flipped⟩
        rw [List.isEmpty_iff.mp nobody] at dropped
        cases dropped
      have whole : committee.filter (accepts (keep committee)) = committee := List.filter_eq_self.mpr all
      dsimp only
      rw [whole]
      refine ⟨List.Sublist.refl _, fun x member => accepts_eq_true.mp (all x member), fun v => ?_⟩
      constructor
      · exact .inl
      · rintro (old | ⟨inside, outside⟩)
        · exact old
        · exact absurd inside outside
    · obtain ⟨sub, passes, members⟩ := ih computed
      refine ⟨sub.trans List.filter_sublist, passes, fun v => ?_⟩
      rw [members v, List.mem_append]
      constructor
      · rintro ((old | dropped) | ⟨kept, notKept⟩)
        · exact .inl old
        · -- a rejected member is not among those kept later
          obtain ⟨inside, rejected⟩ := List.mem_filter.mp dropped
          refine .inr ⟨inside, fun remains => ?_⟩
          have accepted := (List.mem_filter.mp (sub.subset remains)).2
          simp only [accepted, Bool.not_true, Bool.false_eq_true] at rejected
        · exact .inr ⟨(List.mem_filter.mp kept).1, notKept⟩
      · rintro (old | ⟨inside, notKept⟩)
        · exact .inl (.inl old)
        · by_cases accepted : accepts (keep committee) v = true
          · exact .inr ⟨List.mem_filter.mpr ⟨inside, accepted⟩, notKept⟩
          · have rejected : (!accepts (keep committee) v) = true := by
              simp only [Bool.not_eq_true', Bool.eq_false_iff, ne_eq]
              exact accepted
            exact .inl (.inr (List.mem_filter.mpr ⟨inside, rejected⟩))

section Origin

variable {origin : List α}

/-- The rounds end once the fuel exceeds the committee's length, if the test answers for
every sub-committee of `origin`. -/
theorem rounds_isSome
    (total : ∀ committee, committee.Sublist origin → ∀ x ∈ committee, (keep committee x).isSome) :
    ∀ {fuel : Nat} {committee pruned : List α}, committee.Sublist origin → committee.length < fuel →
      (rounds keep fuel committee pruned).isSome := by
  intro fuel
  induction fuel with
  | zero => intro _ _ _ short; omega
  | succ fuel ih =>
    intro committee pruned inside short
    obtain ⟨split, partitioned⟩ := partitionSome_of_isSome (total committee inside)
    have halves := (partitionSome_eq_some partitioned).1
    simp only [rounds, partitioned, Option.bind_eq_bind, Option.bind_some]
    split_ifs with nobody
    · rfl
    · -- somebody was rejected: fewer members go on
      rw [halves] at nobody ⊢
      dsimp only at nobody ⊢
      have counted : committee.length = (committee.filter (accepts (keep committee))).length +
          (committee.filter fun x => !accepts (keep committee) x).length :=
        List.length_eq_length_filter_add _
      have rejected : 0 < (committee.filter fun x => !accepts (keep committee) x).length :=
        List.length_pos_iff.mpr fun empty => nobody (List.isEmpty_iff.mpr empty)
      exact ih (List.filter_sublist.trans inside) (by omega)

/-- If the test only gains members as the committee grows, every sub-collection of the
committee that passes against itself is kept: it survives each round, since against the larger
committee its members pass again. -/
theorem rounds_greatest
    (monotone : ∀ small large x, large.Sublist origin → small.Subperm large → x ∈ small →
      keep small x = some true → keep large x = some true) :
    ∀ {fuel : Nat} {committee pruned : List α} {result : List α × List α}, committee.Sublist origin →
      rounds keep fuel committee pruned = some result →
        ∀ supported : List α, supported.Subperm committee →
          (∀ x ∈ supported, keep supported x = some true) → supported.Subperm result.1 := by
  intro fuel
  induction fuel with
  | zero => intro _ _ _ _ computed; cases computed
  | succ fuel ih =>
    intro committee pruned result inside computed supported within passes
    obtain ⟨split, partitioned, computed⟩ := Option.bind_eq_some_iff.mp computed
    obtain ⟨rfl, _⟩ := partitionSome_eq_some partitioned
    have survives : supported.Subperm (committee.filter (accepts (keep committee))) := by
      have kept : supported.filter (accepts (keep committee)) = supported :=
        List.filter_eq_self.mpr fun x member =>
          accepts_eq_true.mpr (monotone supported committee x inside within member (passes x member))
      rw [← kept]
      exact within.filter _
    dsimp only at computed
    split_ifs at computed
    · cases computed
      exact survives
    · exact ih (List.filter_sublist.trans inside) computed supported survives passes

end Origin

end Pruning
