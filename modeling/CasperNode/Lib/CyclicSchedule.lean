import Mathlib

/-!
A weighted cyclic order over a list of slots, each with a key and a number of tickets: from
position `pos` the slots come in the order of `slots.rotate pos`, and a slot serves its key as
many times as it has tickets.

`upcoming` is what is served from a slot with tickets left: the rest of that slot, then full
cycles. Moving on to the next slot keeps what is served a prefix of what was to come
(`upcoming_advance`). `gapFrom` is the tickets served before the first slot of a key, at most
the tickets of the other keys' slots (`gapFrom_le`, `add_gapFrom_le`).
-/

namespace CyclicSchedule

variable {α κ : Type} [DecidableEq κ] (key : α → κ) (tickets : α → Nat)

/-- The keys one full cycle serves from position `pos` on. -/
def cycle (slots : List α) (pos : Nat) : List κ :=
  (slots.rotate pos).flatMap fun slot => List.replicate (tickets slot) (key slot)

/-- What is served from the slot at `pos` with `left` tickets of `activeKey` left, then
`cycles` full cycles from the next slot on. -/
def upcoming (slots : List α) (activeKey : κ) (left pos cycles : Nat) : List κ :=
  List.replicate left activeKey ++ (List.replicate cycles (cycle key tickets slots (pos + 1))).flatten

/-- The tickets served from position `pos` on before the first slot of `target`. -/
def gapFrom (slots : List α) (target : κ) (pos : Nat) : Nat :=
  (((slots.rotate pos).takeWhile fun slot => key slot ≠ target).map tickets).sum

/-- The tickets of the slots of the other keys. -/
def otherTickets (slots : List α) (target : κ) : Nat :=
  ((slots.filter fun slot => key slot ≠ target).map tickets).sum

variable {key tickets}

/-! ### Rotations -/

theorem rotate_eq_cons {slots : List α} {pos : Nat} {slot : α}
    (at_pos : slots[pos % slots.length]? = some slot) :
    ∃ rest, slots.rotate pos = slot :: rest ∧ slots.rotate (pos + 1) = rest ++ [slot] := by
  have inRange : pos % slots.length < slots.length := (List.getElem?_eq_some_iff.mp at_pos).1
  have first : (slots.rotate pos).head? = some slot := by
    rw [← List.rotate_mod, List.head?_rotate inRange, at_pos]
  cases rotated : slots.rotate pos with
  | nil => rw [rotated] at first; cases first
  | cons head rest =>
    rw [rotated, List.head?_cons, Option.some.injEq] at first
    subst first
    refine ⟨rest, rfl, ?_⟩
    rw [← List.rotate_rotate, rotated, List.rotate_cons_succ, List.rotate_zero]

omit [DecidableEq κ] in
theorem flatten_replicate_succ_append (a b : List κ) :
    ∀ cycles : Nat, (List.replicate (cycles + 1) (a ++ b)).flatten =
      a ++ (List.replicate cycles (b ++ a)).flatten ++ b := by
  intro cycles
  induction cycles with
  | zero => simp
  | succ cycles ih =>
    rw [List.replicate_succ, List.flatten_cons, ih, List.replicate_succ, List.flatten_cons]
    simp only [List.append_assoc]

omit [DecidableEq κ] in
/-- Moving on from a slot with no tickets left: the next slot with all its tickets, then full
cycles after it, is a prefix of the full cycles from it. -/
theorem upcoming_advance {slots : List α} {activeKey : κ} {pos : Nat} {next : α}
    (at_next : slots[(pos + 1) % slots.length]? = some next) (cycles : Nat) :
    upcoming key tickets slots (key next) (tickets next) ((pos + 1) % slots.length) cycles <+:
      upcoming key tickets slots activeKey 0 pos (cycles + 1) := by
  obtain ⟨rest, fromNext, afterNext⟩ := rotate_eq_cons at_next
  have later : slots.rotate ((pos + 1) % slots.length + 1) = rest ++ [next] := by
    rw [← List.rotate_mod, Nat.mod_add_mod, List.rotate_mod, afterNext]
  unfold upcoming cycle
  rw [later, fromNext, List.replicate_zero, List.nil_append, List.flatMap_cons, List.flatMap_append,
    flatten_replicate_succ_append, List.flatMap_singleton]
  exact ⟨_, rfl⟩

omit [DecidableEq κ] in
theorem upcoming_succ (slots : List α) (activeKey : κ) (left pos cycles : Nat) :
    upcoming key tickets slots activeKey (left + 1) pos cycles =
      activeKey :: upcoming key tickets slots activeKey left pos cycles := by
  rw [upcoming, List.replicate_succ, List.cons_append, upcoming]

theorem exists_pos_add_mod_eq {n idx pos : Nat} (idx_lt : idx < n) (pos_lt : pos < n) :
    ∃ steps, 0 < steps ∧ steps ≤ n ∧ (idx + steps) % n = pos := by
  refine ⟨(pos + n - idx - 1) % n + 1, Nat.succ_pos _, Nat.mod_lt _ (by omega), ?_⟩
  have around : idx + 1 + (pos + n - idx - 1) = pos + n := by omega
  rw [← Nat.add_assoc, Nat.add_right_comm, Nat.add_mod_mod, around, Nat.add_mod_right,
    Nat.mod_eq_of_lt pos_lt]

/-! ### Gaps -/

theorem sum_le_otherTickets {slots : List α} {target : κ} {pos : Nat} {chosen : List α}
    (within : chosen.Sublist (slots.rotate pos)) (others : ∀ slot ∈ chosen, key slot ≠ target) :
    (chosen.map tickets).sum ≤ otherTickets key tickets slots target := by
  have filtered : chosen.Sublist ((slots.rotate pos).filter fun slot => key slot ≠ target) := by
    have same : chosen.filter (fun slot => key slot ≠ target) = chosen :=
      List.filter_eq_self.mpr fun slot member => by simpa using others slot member
    rw [← same]
    exact within.filter _
  have perm := ((List.rotate_perm slots pos).filter fun slot => key slot ≠ target).map tickets
  unfold otherTickets
  rw [← perm.sum_eq]
  exact (filtered.map tickets).sum_le_sum fun _ _ => Nat.zero_le _

theorem gapFrom_le (slots : List α) (target : κ) (pos : Nat) :
    gapFrom key tickets slots target pos ≤ otherTickets key tickets slots target :=
  sum_le_otherTickets (List.takeWhile_sublist _) fun slot member => by
    simpa using List.mem_takeWhile_imp member

omit [DecidableEq κ] in
theorem rotate_mod_add_one (slots : List α) (pos : Nat) :
    slots.rotate (pos % slots.length + 1) = slots.rotate (pos + 1) := by
  rw [← List.rotate_mod, Nat.mod_add_mod, List.rotate_mod]

theorem gapFrom_mod_add_one (slots : List α) (target : κ) (pos : Nat) :
    gapFrom key tickets slots target (pos % slots.length + 1) = gapFrom key tickets slots target (pos + 1) := by
  unfold gapFrom
  rw [rotate_mod_add_one]

/-- Past a slot of another key the gap goes on with that slot's tickets: the first slot of
`target` comes before the cycle returns to `pos`, so the slot is not counted twice. -/
theorem gapFrom_of_ne {slots : List α} {target : κ} (present : target ∈ slots.map key)
    {pos : Nat} {slot : α} (at_pos : slots[pos % slots.length]? = some slot) (other : key slot ≠ target) :
    gapFrom key tickets slots target pos = tickets slot + gapFrom key tickets slots target (pos + 1) := by
  obtain ⟨rest, fromPos, afterPos⟩ := rotate_eq_cons at_pos
  have inRest : ∃ later ∈ rest, key later = target := by
    have rotated : target ∈ (slots.rotate pos).map key :=
      (List.Perm.mem_iff ((List.rotate_perm slots pos).map key)).mpr present
    rw [fromPos, List.map_cons, List.mem_cons] at rotated
    rcases rotated with same | member
    · exact absurd same.symm other
    · obtain ⟨later, inside, named⟩ := List.mem_map.mp member
      exact ⟨later, inside, named⟩
  have stops : (rest ++ [slot]).takeWhile (fun s => key s ≠ target) =
      rest.takeWhile fun s => key s ≠ target := by
    rw [List.takeWhile_append]
    split_ifs with whole
    · have all : rest.takeWhile (fun s => key s ≠ target) = rest :=
        (List.takeWhile_prefix _).eq_of_length whole
      obtain ⟨later, inside, named⟩ := inRest
      have passes := List.takeWhile_eq_self_iff.mp all later inside
      simp [named] at passes
    · rfl
  unfold gapFrom
  rw [fromPos, afterPos, stops, List.takeWhile_cons_of_pos (by simpa using other), List.map_cons,
    List.sum_cons]

theorem gapFrom_of_eq {slots : List α} {target : κ} {pos : Nat} {slot : α}
    (at_pos : slots[pos % slots.length]? = some slot) (same : key slot = target) :
    gapFrom key tickets slots target pos = 0 := by
  obtain ⟨rest, fromPos, -⟩ := rotate_eq_cons at_pos
  unfold gapFrom
  rw [fromPos, List.takeWhile_cons_of_neg (by simpa using same)]
  rfl

theorem add_gapFrom_le {slots : List α} {target : κ} (present : target ∈ slots.map key)
    {pos : Nat} {slot : α} (at_pos : slots[pos % slots.length]? = some slot) (other : key slot ≠ target) :
    tickets slot + gapFrom key tickets slots target (pos + 1) ≤ otherTickets key tickets slots target := by
  rw [← gapFrom_of_ne present at_pos other]
  exact gapFrom_le slots target pos

/-! ### Stretches

What a fairness bound speaks of: the stretches of a log whose entries all pass a test (all not of
one key). `TailWithin` is the invariant that carries `StretchesWithin` along a log that grows at
the end: the last stretch, with a reserve of what may still come, fits in the bound. -/

section Stretches

variable {β : Type} (p : β → Prop)

/-- Every stretch of `l` whose entries all satisfy `p` has at most `bound` entries. -/
def StretchesWithin (bound : Nat) (l : List β) : Prop :=
  ∀ stretch, stretch <:+: l → (∀ x ∈ stretch, p x) → stretch.length ≤ bound

/-- Every final stretch of `l` whose entries all satisfy `p`, and `reserve` more, fit in `bound`. -/
def TailWithin (bound reserve : Nat) (l : List β) : Prop :=
  ∀ stretch, stretch <:+ l → (∀ x ∈ stretch, p x) → stretch.length + reserve ≤ bound

variable {p} {bound reserve : Nat} {l : List β} {x : β}

theorem stretchesWithin_nil : StretchesWithin p bound ([] : List β) := by
  intro stretch inside _
  rw [List.eq_nil_of_infix_nil inside]
  exact Nat.zero_le _

theorem tailWithin_nil (fits : reserve ≤ bound) : TailWithin p bound reserve ([] : List β) := by
  intro stretch inside _
  rw [List.eq_nil_of_suffix_nil inside, List.length_nil, Nat.zero_add]
  exact fits

theorem TailWithin.mono {smaller : Nat} (tail : TailWithin p bound reserve l) (le : smaller ≤ reserve) :
    TailWithin p bound smaller l :=
  fun stretch inside all => Nat.le_trans (Nat.add_le_add_left le _) (tail stretch inside all)

theorem TailWithin.reserve_le (tail : TailWithin p bound reserve l) : reserve ≤ bound := by
  have fits := tail [] (List.nil_suffix) fun _ member => nomatch member
  rwa [List.length_nil, Nat.zero_add] at fits

theorem TailWithin.concat (tail : TailWithin p bound (reserve + 1) l) :
    TailWithin p bound reserve (l ++ [x]) := by
  intro stretch inside all
  rcases List.suffix_concat_iff.mp inside with empty | ⟨earlier, rfl, before⟩
  · rw [empty, List.length_nil, Nat.zero_add]
    exact Nat.le_of_succ_le tail.reserve_le
  · have fits := tail earlier before fun y member => all y (List.mem_append_left _ member)
    rw [List.length_append, List.length_singleton]
    omega

theorem tailWithin_concat_of_neg (fails : ¬ p x) (fits : reserve ≤ bound) :
    TailWithin p bound reserve (l ++ [x]) := by
  intro stretch inside all
  rcases List.suffix_concat_iff.mp inside with empty | ⟨earlier, rfl, _⟩
  · rw [empty, List.length_nil, Nat.zero_add]
    exact fits
  · exact absurd (all x (List.mem_append_right _ (List.mem_singleton_self x))) fails

theorem StretchesWithin.concat (stretches : StretchesWithin p bound l)
    (room : p x → TailWithin p bound 1 l) : StretchesWithin p bound (l ++ [x]) := by
  intro stretch inside all
  rcases List.infix_concat_iff.mp inside with final | earlier
  · rcases List.suffix_concat_iff.mp final with empty | ⟨before, rfl, ending⟩
    · rw [empty]
      exact Nat.zero_le _
    · have passes := all x (List.mem_append_right _ (List.mem_singleton_self x))
      have fits := room passes before ending fun y member => all y (List.mem_append_left _ member)
      rw [List.length_append, List.length_singleton]
      exact fits
  · exact stretches stretch earlier all

end Stretches

end CyclicSchedule
