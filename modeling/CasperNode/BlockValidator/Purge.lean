import Mathlib
import CasperNode.BlockValidator.Validator

/-!
`purge_oldest_complete` (`block_validator.rs`). The completed timestamps are sorted from newest
to oldest, and while there are more than `max_completed_entries` of them a `retain` pass over
the states drops each completed state whose timestamp is the oldest one left. The map's
iteration order is any order here, since a list stands for it.

A pass drops only completed states, the timestamps it drops are the last ones of the sorted
list, and it drops one at least while the list is too long (`purgePass_spec`,
`purgePass_shortens`). So the loop stops within as many passes as there are timestamps, keeps
every state in progress, keeps exactly `max_completed_entries` completed states when there were
more, and the completed states it drops are never newer than one it keeps.
-/

namespace BlockValidation

variable {ν η α β χ ρ : Type}

/-- The timestamps of the completed states, in iteration order. -/
def completedTimesOf (states : List (ProposedBlock η α β × BlockValidationState ν η α χ ρ)) : List Nat :=
  states.filterMap (·.2.blockTimestampIfCompleted)

def inProgress (entry : ProposedBlock η α β × BlockValidationState ν η α χ ρ) : Bool :=
  entry.2.blockTimestampIfCompleted.isNone

theorem completedTimesOf_cons (entry : ProposedBlock η α β × BlockValidationState ν η α χ ρ)
    (states : List (ProposedBlock η α β × BlockValidationState ν η α χ ρ)) :
    completedTimesOf (entry :: states) = entry.2.blockTimestampIfCompleted.toList ++ completedTimesOf states := by
  cases stamp : entry.2.blockTimestampIfCompleted <;> simp [completedTimesOf, stamp]

/-- One pass keeps the states in order, drops none in progress, and drops completed states
whose timestamps, taken together, are the ones it cut from the end of `times`. -/
theorem purgePass_spec (maxCompletedEntries : Nat) :
    ∀ (states : List (ProposedBlock η α β × BlockValidationState ν η α χ ρ)) (times : List Nat),
      ∃ evicted, (purgePass maxCompletedEntries states times).2 ++ evicted = times ∧
        List.Sublist (purgePass maxCompletedEntries states times).1 states ∧
        (purgePass maxCompletedEntries states times).1.filter inProgress = states.filter inProgress ∧
        List.Perm (completedTimesOf states)
          (completedTimesOf (purgePass maxCompletedEntries states times).1 ++ evicted) ∧
        min times.length maxCompletedEntries ≤ (purgePass maxCompletedEntries states times).2.length := by
  intro states
  induction states with
  | nil => intro times; exact ⟨[], by simp [purgePass]⟩
  | cons entry rest ih =>
    intro times
    by_cases full : times.length ≤ maxCompletedEntries
    · have unchanged : purgePass maxCompletedEntries (entry :: rest) times = (entry :: rest, times) := by
        simp only [purgePass, if_pos full]
      rw [unchanged]
      exact ⟨[], times.append_nil, .refl _, rfl, by simp, Nat.min_le_left _ _⟩
    by_cases oldest : entry.2.blockTimestampIfCompleted = times.getLast?
    · -- the entry holds the oldest timestamp left: it goes, and so does that timestamp
      obtain ⟨last, isLast⟩ : ∃ last, times.getLast? = some last := by
        cases times.getLast?.eq_none_or_eq_some with
        | inl none => simp_all
        | inr found => exact found
      obtain ⟨earlier, rfl⟩ := List.getLast?_eq_some_iff.mp isLast
      obtain ⟨evicted, cut, kept, filtered, perm, long⟩ := ih earlier
      have completed : entry.2.blockTimestampIfCompleted = some last := oldest.trans isLast
      refine ⟨evicted ++ [last], ?_⟩
      simp only [purgePass, if_neg full, if_pos oldest, List.dropLast_concat]
      refine ⟨by rw [← List.append_assoc, cut], kept.cons entry, ?_, ?_, ?_⟩
      · rw [filtered, List.filter_cons_of_neg (by simp [inProgress, completed])]
      · rw [completedTimesOf_cons, completed, Option.toList_some, ← List.append_assoc]
        exact (perm.cons last).trans (List.perm_append_singleton _ _).symm
      · simp only [List.length_append, List.length_singleton] at full ⊢
        omega
    · obtain ⟨evicted, cut, kept, filtered, perm, long⟩ := ih times
      refine ⟨evicted, ?_⟩
      simp only [purgePass, if_neg full, if_neg oldest]
      refine ⟨cut, kept.cons_cons entry, ?_, ?_, long⟩
      · by_cases running : inProgress entry = true
        · simp only [List.filter_cons_of_pos running, filtered]
        · simp only [List.filter_cons_of_neg running, filtered]
      · rw [completedTimesOf_cons, completedTimesOf_cons, List.append_assoc]
        exact perm.append_left _

theorem purgePass_length_le (maxCompletedEntries : Nat)
    (states : List (ProposedBlock η α β × BlockValidationState ν η α χ ρ)) (times : List Nat) :
    (purgePass maxCompletedEntries states times).2.length ≤ times.length := by
  obtain ⟨evicted, cut, -⟩ := purgePass_spec maxCompletedEntries states times
  have lengths := congrArg List.length cut
  rw [List.length_append] at lengths
  omega

/-- While `times` is too long and its oldest timestamp is held by some state, a pass drops
one timestamp at least. -/
theorem purgePass_shortens (maxCompletedEntries : Nat) :
    ∀ (states : List (ProposedBlock η α β × BlockValidationState ν η α χ ρ)) (times : List Nat)
      (last : Nat), maxCompletedEntries < times.length → times.getLast? = some last →
        last ∈ completedTimesOf states →
          (purgePass maxCompletedEntries states times).2.length < times.length := by
  intro states
  induction states with
  | nil => intro times last _ _ held; simp [completedTimesOf] at held
  | cons entry rest ih =>
    intro times last tooLong isLast held
    have full : ¬ times.length ≤ maxCompletedEntries := by omega
    by_cases oldest : entry.2.blockTimestampIfCompleted = times.getLast?
    · simp only [purgePass, if_neg full, if_pos oldest]
      have shorter : times.dropLast.length < times.length := by
        have nonempty : times ≠ [] := by
          rintro rfl
          simp at isLast
        rw [List.length_dropLast]
        exact Nat.sub_lt (List.length_pos_iff.mpr nonempty) Nat.one_pos
      exact lt_of_le_of_lt (purgePass_length_le maxCompletedEntries rest times.dropLast) shorter
    · simp only [purgePass, if_neg full, if_neg oldest]
      -- the entry does not hold the oldest timestamp, so a later one does
      have later : last ∈ completedTimesOf rest := by
        rw [completedTimesOf_cons, List.mem_append] at held
        refine held.resolve_left fun own => oldest ?_
        rw [isLast, Option.mem_toList.mp own]
      exact ih times last tooLong isLast later

/-- What the loop leaves: a sublist of the states with the same states in progress, the
fewer of the completed count and the bound as its completed count, and the completed
timestamps it dropped no newer than any it kept. -/
structure Purged (maxCompletedEntries : Nat)
    (states kept : List (ProposedBlock η α β × BlockValidationState ν η α χ ρ)) : Prop where
  sublist : List.Sublist kept states
  inProgress_eq : kept.filter inProgress = states.filter inProgress
  length_eq : (completedTimesOf kept).length = min (completedTimesOf states).length maxCompletedEntries
  oldest : ∃ evicted, List.Perm (completedTimesOf states) (completedTimesOf kept ++ evicted) ∧
    ∀ old ∈ evicted, ∀ time ∈ completedTimesOf kept, old ≤ time

theorem purged_of_le {maxCompletedEntries : Nat}
    {states : List (ProposedBlock η α β × BlockValidationState ν η α χ ρ)}
    (few : (completedTimesOf states).length ≤ maxCompletedEntries) : Purged maxCompletedEntries states states :=
  ⟨.refl _, rfl, (Nat.min_eq_left few).symm, ⟨[], by simp, by simp⟩⟩

/-- The loop, by induction on the fuel: `times` stays the sorted completed timestamps of the
states left, and each pass shortens it while it is too long. -/
theorem purgeLoop_purged (maxCompletedEntries : Nat) :
    ∀ (fuel : Nat) (states : List (ProposedBlock η α β × BlockValidationState ν η α χ ρ)) (times : List Nat),
      List.Perm times (completedTimesOf states) → times.Pairwise (fun lhs rhs => rhs ≤ lhs) →
        times.length ≤ fuel + maxCompletedEntries →
          Purged maxCompletedEntries states (purgeLoop maxCompletedEntries fuel states times) := by
  intro fuel
  induction fuel with
  | zero =>
    intro states times perm _ bounded
    exact purged_of_le (perm.length_eq ▸ (by omega))
  | succ fuel ih =>
    intro states times perm sorted bounded
    by_cases tooLong : times.length > maxCompletedEntries
    · simp only [purgeLoop, if_pos tooLong]
      obtain ⟨evicted, cut, passed, filtered, dropped, long⟩ := purgePass_spec maxCompletedEntries states times
      set pass := purgePass maxCompletedEntries states times with passEq
      obtain ⟨last, isLast⟩ : ∃ last, times.getLast? = some last :=
        Option.isSome_iff_exists.mp (List.getLast?_isSome.mpr (List.ne_nil_of_length_pos (by omega)))
      have shorter : pass.2.length < times.length :=
        purgePass_shortens maxCompletedEntries states times last tooLong isLast
          (perm.subset (List.mem_of_getLast? isLast))
      -- what is left of `times` is the prefix the pass kept
      have keptPerm : List.Perm pass.2 (completedTimesOf pass.1) := by
        rw [← List.perm_append_right_iff evicted, cut]
        exact perm.trans dropped
      have keptSorted : pass.2.Pairwise (fun lhs rhs => rhs ≤ lhs) :=
        (cut ▸ sorted).sublist (List.sublist_append_left _ _)
      have rest := ih pass.1 pass.2 keptPerm keptSorted (by omega)
      obtain ⟨evictedLater, later, laterOld⟩ := rest.oldest
      refine ⟨rest.sublist.trans passed, rest.inProgress_eq.trans filtered, ?_, ?_⟩
      · rw [rest.length_eq, ← keptPerm.length_eq, ← perm.length_eq]
        omega
      · refine ⟨evictedLater ++ evicted, ?_, ?_⟩
        · rw [← List.append_assoc]
          exact dropped.trans (later.append_right _)
        · intro old evictedOld time keptTime
          rcases List.mem_append.mp evictedOld with inLater | inPass
          · exact laterOld old inLater time keptTime
          · -- `times` runs from newest to oldest, and the pass cut its end
            have inPrefix : time ∈ pass.2 :=
              keptPerm.symm.subset (later.symm.subset (List.mem_append_left _ keptTime))
            exact (List.pairwise_append.mp (cut ▸ sorted)).2.2 time inPrefix old inPass
    · simp only [purgeLoop, if_neg tooLong]
      exact purged_of_le (perm.length_eq ▸ (by omega))

/-- `purge_oldest_complete`, for any iteration order of the map: it returns, keeps every state
in progress, keeps `max_completed_entries` completed states when there were more (all of them
otherwise), and every completed state it drops is no newer than each one it keeps. -/
theorem purge_oldest_complete_evicts_only_oldest (maxCompletedEntries : Nat)
    (states : List (ProposedBlock η α β × BlockValidationState ν η α χ ρ)) :
    Purged maxCompletedEntries states (purgeOldestComplete maxCompletedEntries states) := by
  -- the sort runs from newest to oldest
  have : Std.Total (fun lhs rhs : Nat => rhs ≤ lhs) := ⟨fun lhs rhs => le_total rhs lhs⟩
  have : IsTrans Nat (fun lhs rhs : Nat => rhs ≤ lhs) := ⟨fun _ _ _ first second => le_trans second first⟩
  have perm := List.perm_insertionSort (fun lhs rhs : Nat => rhs ≤ lhs) (completedTimesOf states)
  exact purgeLoop_purged maxCompletedEntries _ states _ perm
    (List.pairwise_insertionSort _ _) (by omega)

end BlockValidation
