import Mathlib

/-!
Queues kept per key, with a log of every item that went in and one of every item that came
out, each entry tagged with its key. `Accounts` says that each queue holds what went in for its
key and has not come out, in order. Pushing to the back of a queue and popping from its front
keep it (`Accounts.push`, `Accounts.pop`); what came out for a key is then a prefix of what went
in (`Accounts.returned_prefix`), and while fewer items came out than went in, some queue holds
one (`Accounts.exists_ne_nil`).
-/

namespace KeyedFifo

variable {κ ι : Type} [DecidableEq κ]

/-- The items a log holds for `key`, in order. -/
def ofKey (key : κ) (log : List (κ × ι)) : List ι :=
  (log.filter fun entry => entry.1 = key).map Prod.snd

theorem ofKey_concat_self (key : κ) (log : List (κ × ι)) (item : ι) :
    ofKey key (log ++ [(key, item)]) = ofKey key log ++ [item] := by
  simp [ofKey]

theorem ofKey_concat_of_ne {key other : κ} (differ : other ≠ key) (log : List (κ × ι)) (item : ι) :
    ofKey key (log ++ [(other, item)]) = ofKey key log := by
  simp [ofKey, differ]

theorem count_map_fst (key : κ) (log : List (κ × ι)) :
    (log.map Prod.fst).count key = (ofKey key log).length := by
  rw [List.count_eq_countP, List.countP_map, List.countP_eq_length_filter, ofKey, List.length_map]
  congr 1

/-- Each queue holds, in order, what went in for its key and did not come out. -/
def Accounts (queued : κ → List ι) (enqueued returned : List (κ × ι)) : Prop :=
  ∀ key, ofKey key returned ++ queued key = ofKey key enqueued

variable {queued queued' : κ → List ι} {enqueued returned : List (κ × ι)}

theorem Accounts.push (accounts : Accounts queued enqueued returned) {key : κ} {item : ι}
    (pushed : queued' key = queued key ++ [item]) (others : ∀ other, other ≠ key → queued' other = queued other) :
    Accounts queued' (enqueued ++ [(key, item)]) returned := by
  intro other
  by_cases same : other = key
  · subst same
    rw [pushed, ofKey_concat_self, ← accounts other, List.append_assoc]
  · rw [others other same, ofKey_concat_of_ne (Ne.symm same), accounts other]

theorem Accounts.pop (accounts : Accounts queued enqueued returned) {key : κ} {item : ι}
    (popped : queued key = item :: queued' key) (others : ∀ other, other ≠ key → queued' other = queued other) :
    Accounts queued' enqueued (returned ++ [(key, item)]) := by
  intro other
  by_cases same : other = key
  · subst same
    rw [ofKey_concat_self, List.append_assoc, List.singleton_append, ← popped, accounts other]
  · rw [others other same, ofKey_concat_of_ne (Ne.symm same), accounts other]

theorem Accounts.returned_prefix (accounts : Accounts queued enqueued returned) (key : κ) :
    ofKey key returned <+: ofKey key enqueued :=
  ⟨queued key, accounts key⟩

theorem Accounts.exists_ne_nil (accounts : Accounts queued enqueued returned)
    (fewer : returned.length < enqueued.length) : ∃ key, queued key ≠ [] := by
  by_contra empty
  have drained : ∀ key, ofKey key returned = ofKey key enqueued := by
    intro key
    have none : queued key = [] := by
      by_contra holds
      exact empty ⟨key, holds⟩
    rw [← accounts key, none, List.append_nil]
  have perm : List.Perm (returned.map Prod.fst) (enqueued.map Prod.fst) :=
    List.perm_iff_count.mpr fun key => by rw [count_map_fst, count_map_fst, drained key]
  have same := perm.length_eq
  rw [List.length_map, List.length_map] at same
  omega

end KeyedFifo
