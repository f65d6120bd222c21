import CompiledGrammar.Proofs.Grammar.Checked
import CompiledGrammar.Proofs.Grammar.SinglePath

/-!
# Searching the lexical automaton with stacks

`SinglePath.accepts` finds the single states in rounds, from the list of all arrivals.  The search
of this module keeps no such list.  It looks at one edge at a time and marks states, as *reached*
when an edge first leads to them, and as *shared* when one leads to them again, together with all
that can be reached from there.

* `SinglePath.Search.step` is one step of the search, and `SinglePath.Search.run?` a run of at most
  so many.  Three stacks say what is still to be done, and a state may be on one of them several
  times, or be marked as shared before it is reached.
* `SinglePath.Search.Sound` is the invariant of a step.  It is about the arrivals so far: each has
  left its mark, and what has been arrived at twice is marked as shared, or about to be.
* Every step makes progress (`SinglePath.Search.Sound.remaining_lt`): a state is reached or marked,
  or else one of the stacks gets shorter, where entries that have been marked in the meantime do not
  lead to new ones.
* So the search comes to an end, and has then found the single states
  (`SinglePath.Search.Sound.mem_singles_iff`): nothing depends on the order in which it goes.

`SinglePath.count_eq_card` says of both, the rounds and the search, that they count the states that
exactly one walk leads to.
-/

namespace CompiledGrammar

/-- What a list contributes to a count comes from those elements that contribute anything. -/
theorem count_flatMap_le {α β : Type} [DecidableEq α] [DecidableEq β] {f : α → List β} {b : β}
    {xs ys : List α} (hxs : xs.Nodup) (h : ∀ x ∈ xs, b ∈ f x → x ∈ ys) :
    (xs.flatMap f).count b ≤ (ys.flatMap f).count b := by
  induction xs generalizing ys with
  | nil => exact Nat.zero_le _
  | cons x xs ih =>
    obtain ⟨hx, hxs⟩ := List.nodup_cons.1 hxs
    rw [List.flatMap_cons, List.count_append]
    by_cases hb : b ∈ f x
    · have hys := List.perm_cons_erase (h x List.mem_cons_self hb)
      rw [(hys.flatMap_right f).count_eq, List.flatMap_cons, List.count_append]
      refine Nat.add_le_add_left (ih hxs fun y hy hby => ?_) _
      have hne : y ≠ x := fun heq => hx (heq ▸ hy)
      exact (List.mem_erase_of_ne hne).2 (h y (List.mem_cons_of_mem _ hy) hby)
    · rw [List.count_eq_zero_of_not_mem hb, Nat.zero_add]
      exact ih hxs fun y hy => h y (List.mem_cons_of_mem _ hy)

namespace SinglePath

/-- A search between two steps. -/
structure Search where
  /-- The states that an edge has led to, and the initial one. -/
  reached : Finset DfaStateIdx
  /-- The states that have been marked as shared. -/
  several : Finset DfaStateIdx
  /-- States that have been reached and whose edges are still to be looked at, latest first. -/
  todo : List DfaStateIdx
  /-- Where the other edges of the state lead that is being looked at. -/
  pending : List DfaStateIdx
  /-- States that are to be marked as shared, latest first. -/
  spreading : List DfaStateIdx
deriving DecidableEq

namespace Search

variable (states : List DfaRow) (initial : DfaStateIdx) (s : Search)

/-- The search before its first step. -/
def start : Search where
  reached := {initial}
  several := ∅
  todo := [initial]
  pending := []
  spreading := []

/-- One step: mark a state as shared, look at an edge, or turn to the edges of another state. -/
def step : Option Search :=
  match s.spreading, s.pending, s.todo with
  | m :: spreading, _, _ =>
    let several := insert m s.several
    let fresh := (targets states m).filter fun t => t ∉ several
    some { s with several, spreading := fresh.reverse ++ spreading }
  | [], t :: pending, todo =>
    if t ∈ s.several then some { s with pending }
    else if t ∈ s.reached then some { s with pending, spreading := [t] }
    else some { s with pending, reached := insert t s.reached, todo := t :: todo }
  | [], [], i :: todo => some { s with pending := targets states i, todo }
  | [], [], [] => none

/-- Step until nothing is left to do, if that takes fewer than `n` steps. -/
def run? (states : List DfaRow) : Nat → Search → Option Search
  | 0, _ => none
  | n + 1, s =>
    match s.step states with
    | none => some s
    | some next => run? states n next

/-- How many states accept the symbol and have been reached, but have not been marked as shared. -/
def count (symbol : SymbolIdx) : Nat :=
  (List.range states.length).countP fun i =>
    i ∈ s.reached ∧ i ∉ s.several ∧ Accepts states symbol i

variable {states initial s}

/-- More steps than are needed do no harm. -/
theorem run?_of_le {n m : Nat} {final : Search} (h : s.run? states n = some final) (hle : n ≤ m) :
    s.run? states m = some final := by
  induction n generalizing s m with
  | zero => cases h
  | succ n ih =>
    obtain ⟨m, rfl⟩ := Nat.exists_eq_add_of_le' (Nat.le_trans (Nat.le_add_left 1 n) hle)
    rw [run?] at h ⊢
    cases hstep : s.step states with
    | none =>
      rw [hstep] at h
      exact h
    | some next =>
      rw [hstep] at h
      exact ih h (Nat.le_of_succ_le_succ hle)

/-- The steps, by what they do. -/
inductive Moves (states : List DfaRow) : Search → Search → Prop where
  /-- A state is marked as shared, and those that it has edges to are next, unless they are. -/
  | spread {reached several : Finset DfaStateIdx} {todo pending spreading : List DfaStateIdx}
      {m : DfaStateIdx} :
      Moves states ⟨reached, several, todo, pending, m :: spreading⟩
        ⟨reached, insert m several, todo, pending,
          ((targets states m).filter fun t => t ∉ insert m several).reverse ++ spreading⟩
  /-- An edge leads to a state that is marked as shared. -/
  | skip {reached several : Finset DfaStateIdx} {todo pending : List DfaStateIdx}
      {t : DfaStateIdx} : t ∈ several →
      Moves states ⟨reached, several, todo, t :: pending, []⟩
        ⟨reached, several, todo, pending, []⟩
  /-- An edge leads to a state for the second time. -/
  | again {reached several : Finset DfaStateIdx} {todo pending : List DfaStateIdx}
      {t : DfaStateIdx} : t ∉ several → t ∈ reached →
      Moves states ⟨reached, several, todo, t :: pending, []⟩
        ⟨reached, several, todo, pending, [t]⟩
  /-- An edge leads to a state for the first time. -/
  | reach {reached several : Finset DfaStateIdx} {todo pending : List DfaStateIdx}
      {t : DfaStateIdx} : t ∉ several → t ∉ reached →
      Moves states ⟨reached, several, todo, t :: pending, []⟩
        ⟨insert t reached, several, t :: todo, pending, []⟩
  /-- The edges of another state are next. -/
  | turn {reached several : Finset DfaStateIdx} {todo : List DfaStateIdx} {i : DfaStateIdx} :
      Moves states ⟨reached, several, i :: todo, [], []⟩
        ⟨reached, several, todo, targets states i, []⟩

theorem moves_of_step {next : Search} (h : s.step states = some next) : Moves states s next := by
  obtain ⟨reached, several, todo, pending, spreading⟩ := s
  match spreading, pending, todo with
  | m :: spreading, pending, todo =>
    cases h
    exact .spread
  | [], t :: pending, todo =>
    simp only [step] at h
    split at h
    · cases h
      exact .skip ‹_›
    split at h
    · cases h
      exact .again ‹_› ‹_›
    · cases h
      exact .reach ‹_› ‹_›
  | [], [], i :: todo =>
    cases h
    exact .turn
  | [], [], [] => cases h

theorem eq_nil_of_step (h : s.step states = none) :
    s.todo = [] ∧ s.pending = [] ∧ s.spreading = [] := by
  obtain ⟨reached, several, todo, pending, spreading⟩ := s
  match spreading, pending, todo with
  | [], t :: pending, todo =>
    simp only [step] at h
    split at h
    · cases h
    split at h <;> cases h
  | [], [], [] => exact ⟨rfl, rfl, rfl⟩

/-! ### The invariant -/

/-- The search has looked at edges of the states `taken`, has arrived at the states `seen`, and has
left its marks.  The states are in no particular order, but those that have been arrived at several
times are in `seen` as many times. -/
structure Sound (states : List DfaRow) (initial : DfaStateIdx) (s : Search)
    (taken seen : List DfaStateIdx) : Prop where
  /-- With the edges that are still to be looked at, these are all arrivals from those states. -/
  arrivals : (seen ++ s.pending).Perm (initial :: taken.flatMap (targets states))
  /-- No edges are looked at twice. -/
  nodup : (s.todo ++ taken).Nodup
  /-- The edges of all states that have been reached are looked at some time. -/
  reached : ∀ i, i ∈ s.reached ↔ i ∈ s.todo ++ taken
  /-- Walks lead there. -/
  leads : ∀ i ∈ s.reached, Leads states initial i
  /-- What has been reached has been arrived at. -/
  seen_of_reached : ∀ i ∈ s.reached, i ∈ seen
  /-- Every arrival has left a mark. -/
  marked : ∀ i ∈ seen, i ∈ s.reached ∨ i ∈ s.several
  /-- A second arrival has been noticed. -/
  noticed : ∀ i, 1 < seen.count i → i ∈ s.several ∨ i ∈ s.spreading
  /-- Only shared states are marked as such. -/
  shared : ∀ i, i ∈ s.several ∨ i ∈ s.spreading → i ∈ shared states initial
  /-- Marks are passed on along all edges. -/
  spread : ∀ i ∈ s.several, ∀ t ∈ targets states i, t ∈ s.several ∨ t ∈ s.spreading

variable {taken seen : List DfaStateIdx}

theorem sound_start (states : List DfaRow) (initial : DfaStateIdx) :
    (start initial).Sound states initial [] [initial] where
  arrivals := .refl _
  nodup := List.nodup_singleton initial
  reached i := by simp [start]
  leads i hi := ⟨[], congrArg some (Finset.mem_singleton.1 hi).symm⟩
  seen_of_reached i hi := List.mem_singleton.2 (Finset.mem_singleton.1 hi)
  marked i hi := Or.inl (Finset.mem_singleton.2 (List.mem_singleton.1 hi))
  noticed i hi := absurd (Nat.lt_of_lt_of_le hi List.count_le_length) (Nat.lt_irrefl 1)
  shared i hi := by simp [start] at hi
  spread i hi := by simp [start] at hi

end Search

section

variable {states : List DfaRow} {initial i t : DfaStateIdx}

/-- What can be reached from a shared state is shared, too. -/
theorem mem_shared_of_mem_targets (hstates : Closed states) (hinitial : initial < states.length)
    (hi : i ∈ shared states initial) (ht : t ∈ targets states i) : t ∈ shared states initial := by
  have hwithin : ∀ i, ∀ t ∈ targets states i, t < states.length :=
    fun i t => lt_of_mem_targets hstates
  rw [mem_shared_iff hwithin hinitial] at hi ⊢
  obtain ⟨m, htwice, hleads⟩ := hi
  exact ⟨m, htwice, hleads.trans (.of_mem_targets ht)⟩

/-- A state that is arrived at twice is shared. -/
theorem mem_shared_of_one_lt (hstates : Closed states) (hinitial : initial < states.length)
    (hi : 1 < (arrivals states initial).count i) : i ∈ shared states initial := by
  have hwithin : ∀ i, ∀ t ∈ targets states i, t < states.length :=
    fun i t => lt_of_mem_targets hstates
  rw [mem_shared_iff hwithin hinitial]
  exact ⟨i, (one_lt_count_arrivals_iff hwithin hinitial).1 hi, [], rfl⟩

end

namespace Search

variable {states : List DfaRow} {initial i : DfaStateIdx} {s next : Search}
  {taken seen : List DfaStateIdx}

/-! ### Steps -/

namespace Sound

/-- What is arrived at next is the initial state or has an edge to it that is being looked at. -/
theorem leads_of_mem (h : s.Sound states initial taken seen) (hi : i ∈ seen ++ s.pending) :
    Leads states initial i := by
  rcases List.mem_cons.1 (h.arrivals.mem_iff.1 hi) with rfl | hi
  · exact ⟨[], rfl⟩
  · obtain ⟨j, hj, hi⟩ := List.mem_flatMap.1 hi
    have hreached := (h.reached j).2 (List.mem_append_right _ hj)
    exact (h.leads j hreached).trans (.of_mem_targets hi)

/-- The arrivals so far are among all arrivals. -/
theorem count_le (hstates : Closed states) (hinitial : initial < states.length)
    (h : s.Sound states initial taken seen) :
    (seen ++ s.pending).count i ≤ (SinglePath.arrivals states initial).count i := by
  rw [h.arrivals.count_eq, SinglePath.arrivals, List.count_cons, List.count_cons]
  refine Nat.add_le_add_right (count_flatMap_le (List.nodup_append.1 h.nodup).2.1 ?_) _
  intro j hj _
  rw [mem_reachable_singleton_iff (fun i t => lt_of_mem_targets hstates) hinitial]
  exact h.leads j ((h.reached j).2 (List.mem_append_right _ hj))

/-- A mark is passed on. -/
theorem move_spread {reached several : Finset DfaStateIdx}
    {todo pending spreading : List DfaStateIdx} {m : DfaStateIdx} (hstates : Closed states)
    (hinitial : initial < states.length)
    (h : Sound states initial ⟨reached, several, todo, pending, m :: spreading⟩ taken seen) :
    Sound states initial ⟨reached, insert m several, todo, pending,
      ((targets states m).filter fun t => t ∉ insert m several).reverse ++ spreading⟩ taken
      seen where
  arrivals := h.arrivals
  nodup := h.nodup
  reached := h.reached
  leads := h.leads
  seen_of_reached := h.seen_of_reached
  marked i hi := (h.marked i hi).imp_right (Finset.mem_insert_of_mem ·)
  noticed i hi := by
    rcases h.noticed i hi with hi | hi
    · exact Or.inl (Finset.mem_insert_of_mem hi)
    · rcases List.mem_cons.1 hi with rfl | hi
      · exact Or.inl (Finset.mem_insert_self _ _)
      · exact Or.inr (List.mem_append_right _ hi)
  shared i hi := by
    have hm := h.shared m (Or.inr List.mem_cons_self)
    rcases hi with hi | hi
    · rcases Finset.mem_insert.1 hi with rfl | hi
      · exact hm
      · exact h.shared i (Or.inl hi)
    · rcases List.mem_append.1 hi with hi | hi
      · have ht := List.mem_of_mem_filter (List.mem_reverse.1 hi)
        exact mem_shared_of_mem_targets hstates hinitial hm ht
      · exact h.shared i (Or.inr (List.mem_cons_of_mem _ hi))
  spread i hi t ht := by
    rcases Finset.mem_insert.1 hi with rfl | hi
    · by_cases hmarked : t ∈ insert i several
      · exact Or.inl hmarked
      · refine Or.inr (List.mem_append_left _ (List.mem_reverse.2 ?_))
        exact List.mem_filter.2 ⟨ht, decide_eq_true hmarked⟩
    · rcases h.spread i hi t ht with ht | ht
      · exact Or.inl (Finset.mem_insert_of_mem ht)
      · rcases List.mem_cons.1 ht with rfl | ht
        · exact Or.inl (Finset.mem_insert_self _ _)
        · exact Or.inr (List.mem_append_right _ ht)

/-- A state is arrived at that has a mark already.  If it is not marked as shared yet, it is next to
be. -/
theorem move_arrive {reached several : Finset DfaStateIdx}
    {todo pending spreading : List DfaStateIdx} {t : DfaStateIdx} (hstates : Closed states)
    (hinitial : initial < states.length)
    (h : Sound states initial ⟨reached, several, todo, t :: pending, []⟩ taken seen)
    (ht : t ∈ several ∧ spreading = [] ∨ t ∈ reached ∧ spreading = [t]) :
    Sound states initial ⟨reached, several, todo, pending, spreading⟩ taken (t :: seen) where
  arrivals := List.perm_middle.symm.trans h.arrivals
  nodup := h.nodup
  reached := h.reached
  leads := h.leads
  seen_of_reached i hi := List.mem_cons_of_mem _ (h.seen_of_reached i hi)
  marked i hi := by
    rcases List.mem_cons.1 hi with rfl | hi
    · rcases ht with ⟨ht, -⟩ | ⟨ht, -⟩
      · exact Or.inr ht
      · exact Or.inl ht
    · exact h.marked i hi
  noticed i hi := by
    by_cases hit : i = t
    · rw [hit]
      rcases ht with ⟨ht, -⟩ | ⟨-, rfl⟩
      · exact Or.inl ht
      · exact Or.inr (List.mem_singleton_self t)
    · rw [List.count_cons_of_ne (Ne.symm hit)] at hi
      exact Or.inl ((h.noticed i hi).resolve_right List.not_mem_nil)
  shared i hi := by
    rcases hi with hi | hi
    · exact h.shared i (Or.inl hi)
    · rcases ht with ⟨-, rfl⟩ | ⟨ht, rfl⟩
      · cases hi
      · rw [List.mem_singleton.1 hi]
        -- it has been arrived at before, and now again
        refine mem_shared_of_one_lt hstates hinitial (Nat.lt_of_lt_of_le ?_
          (h.count_le hstates hinitial))
        have hseen := List.count_pos_iff.2 (h.seen_of_reached t ht)
        rw [List.count_append, List.count_cons_self]
        omega
  spread i hi u hu := Or.inl ((h.spread i hi u hu).resolve_right List.not_mem_nil)

/-- A state is arrived at for the first time. -/
theorem move_reach {reached several : Finset DfaStateIdx} {todo pending : List DfaStateIdx}
    {t : DfaStateIdx}
    (h : Sound states initial ⟨reached, several, todo, t :: pending, []⟩ taken seen)
    (hseveral : t ∉ several) (hreached : t ∉ reached) :
    Sound states initial ⟨insert t reached, several, t :: todo, pending, []⟩ taken
      (t :: seen) where
  arrivals := List.perm_middle.symm.trans h.arrivals
  nodup := List.nodup_cons.2 ⟨fun ht => hreached ((h.reached t).2 ht), h.nodup⟩
  reached i := by
    rw [Finset.mem_insert, h.reached i]
    exact List.mem_cons.symm
  leads i hi := by
    rcases Finset.mem_insert.1 hi with rfl | hi
    · exact h.leads_of_mem (List.mem_append_right _ List.mem_cons_self)
    · exact h.leads i hi
  seen_of_reached i hi := by
    rcases Finset.mem_insert.1 hi with rfl | hi
    · exact List.mem_cons_self
    · exact List.mem_cons_of_mem _ (h.seen_of_reached i hi)
  marked i hi := by
    rcases List.mem_cons.1 hi with rfl | hi
    · exact Or.inl (Finset.mem_insert_self _ _)
    · exact (h.marked i hi).imp_left (Finset.mem_insert_of_mem ·)
  noticed i hi := by
    have hnot : t ∉ seen := fun ht => (h.marked t ht).elim hreached hseveral
    by_cases hit : i = t
    · rw [hit, List.count_cons_self, List.count_eq_zero_of_not_mem hnot] at hi
      exact absurd hi (Nat.lt_irrefl 1)
    · rw [List.count_cons_of_ne (Ne.symm hit)] at hi
      exact h.noticed i hi
  shared := h.shared
  spread := h.spread

/-- The edges of another state are looked at. -/
theorem move_turn {reached several : Finset DfaStateIdx} {todo : List DfaStateIdx}
    {j : DfaStateIdx} (h : Sound states initial ⟨reached, several, j :: todo, [], []⟩ taken seen) :
    Sound states initial ⟨reached, several, todo, targets states j, []⟩ (j :: taken) seen where
  arrivals := by
    have hseen : seen.Perm (initial :: taken.flatMap (targets states)) := by
      simpa using h.arrivals
    rw [List.flatMap_cons]
    refine (hseen.append_right (targets states j)).trans ?_
    exact (List.perm_append_comm).cons initial
  nodup := List.perm_middle.nodup_iff.2 h.nodup
  reached i := (h.reached i).trans (List.perm_middle.mem_iff).symm
  leads := h.leads
  seen_of_reached := h.seen_of_reached
  marked := h.marked
  noticed := h.noticed
  shared := h.shared
  spread := h.spread

/-- **A step keeps the invariant.** -/
theorem move (hstates : Closed states) (hinitial : initial < states.length)
    (h : s.Sound states initial taken seen) (hmove : Moves states s next) :
    ∃ taken seen, next.Sound states initial taken seen := by
  cases hmove with
  | spread => exact ⟨_, _, h.move_spread hstates hinitial⟩
  | skip ht => exact ⟨_, _, h.move_arrive hstates hinitial (Or.inl ⟨ht, rfl⟩)⟩
  | again _ ht => exact ⟨_, _, h.move_arrive hstates hinitial (Or.inr ⟨ht, rfl⟩)⟩
  | reach hseveral hreached => exact ⟨_, _, h.move_reach hseveral hreached⟩
  | turn => exact ⟨_, _, h.move_turn⟩

end Sound

/-! ### Progress -/

/-- What is left to do: states to reach, states to turn to, edges to look at, states to mark, and
entries to take off that have been marked since they were put there. -/
def remaining (states : List DfaRow) (initial : DfaStateIdx) (s : Search) :
    Nat × Nat × Nat × Nat × Nat :=
  (((reachable states [initial]).toFinset \ s.reached).card, s.todo.length, s.pending.length,
    ((shared states initial).toFinset \ s.several).card, s.spreading.countP (· ∈ s.several))

/-- One amount of things left to do is less than another, and the first one that differs counts. -/
abbrev Less : Nat × Nat × Nat × Nat × Nat → Nat × Nat × Nat × Nat × Nat → Prop :=
  Prod.Lex (· < ·) (Prod.Lex (· < ·) (Prod.Lex (· < ·) (Prod.Lex (· < ·) (· < ·))))

theorem wellFounded_less : WellFounded Less :=
  have wf : WellFounded fun n m : Nat => n < m := Nat.lt_wfRel.wf
  wf.prod_lex (wf.prod_lex (wf.prod_lex (wf.prod_lex wf)))

theorem card_sdiff_insert_lt {all marked : Finset DfaStateIdx} (hi : i ∈ all) (hnew : i ∉ marked) :
    (all \ insert i marked).card < (all \ marked).card := by
  refine Finset.card_lt_card (Finset.ssubset_iff_of_subset ?_ |>.2 ⟨i, ?_, ?_⟩)
  · exact Finset.sdiff_subset_sdiff (Finset.Subset.refl _) (Finset.subset_insert _ _)
  · exact Finset.mem_sdiff.2 ⟨hi, hnew⟩
  · exact fun h => (Finset.mem_sdiff.1 h).2 (Finset.mem_insert_self _ _)

/-- **Every step makes progress.** -/
theorem Sound.remaining_lt (hstates : Closed states) (hinitial : initial < states.length)
    (h : s.Sound states initial taken seen) (hmove : Moves states s next) :
    Less (next.remaining states initial) (s.remaining states initial) := by
  cases hmove with
  | @spread reached several todo pending spreading m =>
    refine .right _ (.right _ (.right _ ?_))
    by_cases hm : m ∈ several
    · -- an old entry is taken off, and those that are new have not been marked
      have hsame : insert m several = several := Finset.insert_eq_of_mem hm
      have hfresh : ((targets states m).filter fun t => t ∉ several).countP (· ∈ several) = 0 := by
        refine List.countP_eq_zero.2 fun t ht => ?_
        simpa using (List.mem_filter.1 ht).2
      rw [hsame]
      refine .right _ ?_
      rw [List.countP_append, List.countP_reverse, hfresh, Nat.zero_add,
        List.countP_cons_of_pos (by simpa using hm)]
      exact Nat.lt_succ_self _
    · have hshared := h.shared m (Or.inr List.mem_cons_self)
      exact .left _ _ (card_sdiff_insert_lt (List.mem_toFinset.2 hshared) hm)
  | skip => exact .right _ (.right _ (.left _ _ (Nat.lt_succ_self _)))
  | again => exact .right _ (.right _ (.left _ _ (Nat.lt_succ_self _)))
  | @reach reached several todo pending t hseveral hreached =>
    have hleads := h.leads_of_mem (List.mem_append_right _ List.mem_cons_self)
    rw [← mem_reachable_singleton_iff (fun i t => lt_of_mem_targets hstates) hinitial] at hleads
    exact .left _ _ (card_sdiff_insert_lt (List.mem_toFinset.2 hleads) hreached)
  | turn => exact .right _ (.left _ _ (Nat.lt_succ_self _))

/-- So the search comes to an end. -/
theorem Sound.exists_run? (hstates : Closed states) (hinitial : initial < states.length)
    (h : s.Sound states initial taken seen) : ∃ n final taken seen,
      s.run? states n = some final ∧ final.step states = none ∧
        final.Sound states initial taken seen := by
  induction hleft : s.remaining states initial using wellFounded_less.induction
    generalizing s taken seen with
  | _ left ih =>
    cases hstep : s.step states with
    | none => exact ⟨1, s, taken, seen, by rw [run?, hstep], hstep, h⟩
    | some next =>
      have hmove := moves_of_step hstep
      obtain ⟨taken', seen', hnext⟩ := h.move hstates hinitial hmove
      obtain ⟨n, final, taken', seen', hrun, hend⟩ :=
        ih _ (hleft ▸ h.remaining_lt hstates hinitial hmove) hnext rfl
      exact ⟨n + 1, final, taken', seen', by rw [run?, hstep]; exact hrun, hend⟩

/-! ### The end -/

namespace Sound

/-- In the end marks have been passed on along all edges, -/
theorem mem_several_of_mem_targets (h : s.Sound states initial taken seen)
    (hend : s.step states = none) {t : DfaStateIdx} (hi : i ∈ s.several)
    (ht : t ∈ targets states i) : t ∈ s.several := by
  refine (h.spread i hi t ht).resolve_right ?_
  rw [(eq_nil_of_step hend).2.2]
  exact List.not_mem_nil

/-- the edges of all states that have been reached have been looked at, -/
theorem mem_taken (h : s.Sound states initial taken seen) (hend : s.step states = none)
    (hi : i ∈ s.reached) : i ∈ taken := by
  have hmem := (h.reached i).1 hi
  rwa [(eq_nil_of_step hend).1] at hmem

/-- and every state that walks lead to has a mark. -/
theorem marked_of_leads (h : s.Sound states initial taken seen) (hend : s.step states = none)
    (hi : Leads states initial i) : i ∈ s.reached ∨ i ∈ s.several := by
  have hseen {t : DfaStateIdx} : t ∈ seen ↔ t ∈ initial :: taken.flatMap (targets states) := by
    rw [← h.arrivals.mem_iff, (eq_nil_of_step hend).2.1, List.append_nil]
  refine hi.induction (P := fun i => i ∈ s.reached ∨ i ∈ s.several)
    (h.marked initial (hseen.2 List.mem_cons_self)) fun j hj t ht => ?_
  rcases hj with hj | hj
  · have harrived := List.mem_flatMap.2 ⟨j, h.mem_taken hend hj, ht⟩
    exact h.marked t (hseen.2 (List.mem_cons_of_mem _ harrived))
  · exact Or.inr (h.mem_several_of_mem_targets hend hj ht)

/-- All arrivals at a state that is not marked as shared have been noticed. -/
theorem mem_several_of_one_lt (hstates : Closed states) (hinitial : initial < states.length)
    (h : s.Sound states initial taken seen) (hend : s.step states = none)
    (hi : 1 < (SinglePath.arrivals states initial).count i) : i ∈ s.several := by
  by_contra hnot
  have hcount : (SinglePath.arrivals states initial).count i ≤ seen.count i := by
    have harrivals := h.arrivals
    rw [(eq_nil_of_step hend).2.1, List.append_nil] at harrivals
    rw [harrivals.count_eq, SinglePath.arrivals, List.count_cons, List.count_cons]
    refine Nat.add_le_add_right (count_flatMap_le (nodup_reachable _ _) fun j hj hij => ?_) _
    rw [mem_reachable_singleton_iff (fun i t => lt_of_mem_targets hstates) hinitial] at hj
    refine h.mem_taken hend ((h.marked_of_leads hend hj).resolve_right fun hmarked => ?_)
    exact hnot (h.mem_several_of_mem_targets hend hmarked hij)
  have hnoticed := h.noticed i (Nat.lt_of_lt_of_le hi hcount)
  rw [(eq_nil_of_step hend).2.2] at hnoticed
  exact hnot (hnoticed.resolve_right List.not_mem_nil)

/-- The states that are marked as shared are the shared ones. -/
theorem mem_several_iff (hstates : Closed states) (hinitial : initial < states.length)
    (h : s.Sound states initial taken seen) (hend : s.step states = none) :
    i ∈ s.several ↔ i ∈ SinglePath.shared states initial := by
  have hwithin : ∀ i, ∀ t ∈ targets states i, t < states.length :=
    fun i t => lt_of_mem_targets hstates
  refine ⟨fun hi => h.shared i (Or.inl hi), fun hi => ?_⟩
  obtain ⟨m, htwice, hleads⟩ := (mem_shared_iff hwithin hinitial).1 hi
  have hm := (one_lt_count_arrivals_iff hwithin hinitial).2 htwice
  exact hleads.induction (h.mem_several_of_one_lt hstates hinitial hend hm)
    fun j hj t ht => h.mem_several_of_mem_targets hend hj ht

/-- **The search finds the single states.** -/
theorem mem_singles_iff (hstates : Closed states) (hinitial : initial < states.length)
    (h : s.Sound states initial taken seen) (hend : s.step states = none) :
    i ∈ singles states initial ↔ i ∈ s.reached ∧ i ∉ s.several := by
  rw [h.mem_several_iff hstates hinitial hend, singles, List.mem_filter,
    mem_reachable_singleton_iff (fun i t => lt_of_mem_targets hstates) hinitial,
    List.contains_eq_mem, Bool.not_eq_true', decide_eq_false_iff_not]
  refine and_congr_left fun hnot => ⟨fun hi => ?_, h.leads i⟩
  exact (h.marked_of_leads hend hi).resolve_right
    fun hmarked => hnot (h.shared i (Or.inl hmarked))

end Sound

/-- So what it counts are those that accept the symbol. -/
theorem Sound.count_eq (hstates : Closed states) (hinitial : initial < states.length)
    (h : s.Sound states initial taken seen) (hend : s.step states = none) (symbol : SymbolIdx) :
    s.count states symbol =
      ((singles states initial).filter (Accepts states symbol ·)).toFinset.card := by
  rw [count, List.countP_eq_length_filter,
    ← List.toFinset_card_of_nodup (List.nodup_range.filter _)]
  congr 1
  ext i
  simp only [List.mem_toFinset, List.mem_filter, List.mem_range, decide_eq_true_eq,
    h.mem_singles_iff hstates hinitial hend]
  constructor
  · rintro ⟨-, hreached, hsingle, haccept⟩
    exact ⟨⟨hreached, hsingle⟩, haccept⟩
  · rintro ⟨⟨hreached, hsingle⟩, haccept⟩
    refine ⟨?_, hreached, hsingle, haccept⟩
    -- a state that accepts something is there
    by_contra hge
    rw [Accepts, List.getElem?_eq_none (Nat.le_of_not_lt hge)] at haccept
    cases haccept

end Search

/-! ### Both ways to count -/

variable {states : List DfaRow} {initial : DfaStateIdx}

theorem count_accepts (states : List DfaRow) (initial : DfaStateIdx) (symbol : SymbolIdx) :
    (accepts states initial).count symbol =
      ((singles states initial).filter (Accepts states symbol ·)).toFinset.card := by
  rw [accepts, List.count_filterMap, List.countP_eq_length_filter,
    List.toFinset_card_of_nodup ((nodup_singles states initial).filter _)]
  congr 1
  refine List.filter_congr fun i _ => ?_
  rw [Bool.eq_iff_iff, beq_iff_eq, decide_eq_true_eq]
  exact Iff.rfl

/-- **The states to which a single path leads are counted.**  If all edges lead to states, the
search with stacks comes to an end, and for every symbol it has then counted those states that
accept the symbol and to which exactly one walk leads from the initial state.  Exploring in rounds
counts the same. -/
theorem count_eq_card (hstates : Closed states) (hinitial : initial < states.length) :
    ∃ n final, (∀ m, n ≤ m → (Search.start initial).run? states m = some final) ∧
      ∀ symbol, ∃ found : Finset DfaStateIdx,
        (∀ i, i ∈ found ↔ Accepts states symbol i ∧
          ∃ walk, follow states initial walk = some i ∧
            ∀ other, follow states initial other = some i → other = walk) ∧
        final.count states symbol = found.card ∧
        (accepts states initial).count symbol = found.card := by
  obtain ⟨n, final, taken, seen, hrun, hend, hsound⟩ :=
    (Search.sound_start states initial).exists_run? hstates hinitial
  refine ⟨n, final, fun m hle => Search.run?_of_le hrun hle, fun symbol => ⟨_, fun i => ?_,
    hsound.count_eq hstates hinitial hend symbol, count_accepts states initial symbol⟩⟩
  rw [List.mem_toFinset, List.mem_filter, decide_eq_true_eq,
    SinglePath.mem_singles_iff (fun i t => lt_of_mem_targets hstates) hinitial]
  exact and_comm

/-- An automaton in which a state has a loop, two edges lead from one state to another, and what
lies behind them is marked as shared before it is reached. -/
def branching : List DfaRow :=
  [⟨0, some 7, [⟨0, 1⟩, ⟨1, 2⟩, ⟨2, 3⟩]⟩, ⟨1, some 7, []⟩, ⟨2, some 8, [⟨0, 4⟩, ⟨1, 4⟩]⟩,
    ⟨3, some 7, [⟨0, 3⟩]⟩, ⟨4, none, [⟨0, 5⟩]⟩, ⟨5, some 8, []⟩]

/-- Of the states of `branching` that accept the symbol 7 all but the one with the loop are
single. -/
theorem count_eq_card_branching : Closed branching ∧ 0 < branching.length ∧
    ∃ n final, (Search.start 0).run? branching n = some final ∧ final.count branching 7 = 2 ∧
      (accepts branching 0).count 7 = 2 := by
  have hclosed : Closed branching := by unfold Closed; decide
  have hinitial : 0 < branching.length := by decide
  obtain ⟨n, final, hrun, hcount⟩ := count_eq_card hclosed hinitial
  obtain ⟨found, -, hfinal, haccepts⟩ := hcount 7
  have htwo : (accepts branching 0).count 7 = 2 := by decide
  exact ⟨hclosed, hinitial, n, final, hrun n (Nat.le_refl n),
    hfinal.trans (haccepts.symm.trans htwo), htwo⟩

/-- Of those that accept the symbol 8 it is the one with two edges to the same state. -/
example : ((Search.start 0).run? branching 18).map (·.count branching 8) = some 1 := by
  decide

end SinglePath

end CompiledGrammar
