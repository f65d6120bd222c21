import CompiledGrammar.Grammar.SinglePath
import Mathlib.Data.Finset.Card
import Mathlib.Data.Finset.Range
import Mathlib.Data.List.Nodup

/-!
# Walks of the lexical automaton

`SinglePath.accepts` counts how often each state is arrived at.  Here that is compared with walks.

A walk is a list of choices: the position of the edge that is taken, among the edges of the state
that has been reached so far.  Two edges to the same state are different choices.
`SinglePath.follow` is the state that a walk leads to.

* Exploring in rounds finds the states that walks lead to, each once
  (`SinglePath.mem_reachable_iff`, `SinglePath.nodup_reachable`): the rounds suffice because each
  but the last finds a new state.
* A state is arrived at twice exactly if there are two ways into it (`SinglePath.Arrival`), from
  states that walks lead to (`SinglePath.one_lt_count_arrivals_iff`).
* Two walks to one state either come in by different ways, or come in by the same way, and then
  their beginnings are two walks to one state.  So the single states are those that exactly one walk
  leads to (`SinglePath.mem_singles_iff`), and they are what is counted
  (`SinglePath.count_accepts_eq_one_iff`).
-/

namespace CompiledGrammar

/-! ### Lists without duplicates -/

theorem nodup_eraseDups {α : Type} [DecidableEq α] (l : List α) : l.eraseDups.Nodup := by
  induction hn : l.length using Nat.strongRecOn generalizing l with
  | _ n ih =>
    cases l with
    | nil => exact List.nodup_nil
    | cons a l =>
      rw [List.eraseDups_cons]
      have hle := List.length_filter_le (fun b => !b == a) l
      refine List.nodup_cons.2 ⟨by simp, ih _ ?_ _ rfl⟩
      rw [← hn, List.length_cons]
      exact Nat.lt_succ_of_le hle

/-- A value is taken twice exactly if it is taken at two different places. -/
theorem one_lt_count_map_iff {α β : Type} [BEq β] [LawfulBEq β] {l : List α} (hl : l.Nodup)
    {f : α → β} {b : β} :
    1 < (l.map f).count b ↔ ∃ x ∈ l, ∃ y ∈ l, x ≠ y ∧ f x = b ∧ f y = b := by
  have hcount : (l.map f).count b = (l.filter fun x => f x == b).length := by
    rw [List.count, List.countP_map, List.countP_eq_length_filter]
    rfl
  have hmem {x : α} : x ∈ l.filter (fun x => f x == b) ↔ x ∈ l ∧ f x = b := by
    rw [List.mem_filter, beq_iff_eq]
  have hnodup : (l.filter fun x => f x == b).Nodup := hl.filter _
  rw [hcount]
  generalize l.filter (fun x => f x == b) = found at hmem hnodup
  constructor
  · intro hlt
    match found, hlt with
    | x :: y :: _, _ =>
      have hx := hmem.1 (List.mem_cons_self)
      have hy := hmem.1 (List.mem_cons_of_mem x List.mem_cons_self)
      have hne : x ≠ y := by
        rintro rfl
        exact (List.nodup_cons.1 hnodup).1 List.mem_cons_self
      exact ⟨x, hx.1, y, hy.1, hne, hx.2, hy.2⟩
  · rintro ⟨x, hx, y, hy, hne, hxb, hyb⟩
    have hxmem := hmem.2 ⟨hx, hxb⟩
    have hymem := hmem.2 ⟨hy, hyb⟩
    match found, hxmem, hymem with
    | [z], hx, hy =>
      exact absurd ((List.mem_singleton.1 hx).trans (List.mem_singleton.1 hy).symm) hne
    | _ :: _ :: _, _, _ => simp

/-- As many different numbers below `n` as there are, are all of them. -/
theorem mem_of_length_le {l : List Nat} {n m : Nat} (hl : l.Nodup) (hlt : ∀ i ∈ l, i < n)
    (hlength : n ≤ l.length) (hm : m < n) : m ∈ l := by
  have hsubset : l.toFinset ⊆ Finset.range n := by
    intro i hi
    exact Finset.mem_range.2 (hlt i (List.mem_toFinset.1 hi))
  have hcard : (Finset.range n).card ≤ l.toFinset.card := by
    rwa [Finset.card_range, List.toFinset_card_of_nodup hl]
  rw [← List.mem_toFinset, Finset.eq_of_subset_of_card_le hsubset hcard]
  exact Finset.mem_range.2 hm

namespace SinglePath

variable {states : List DfaRow} {initial i j : DfaStateIdx}
  {starts frontier seen : List DfaStateIdx}

/-! ### Walks -/

/-- The edge at a position of a state. -/
def edge? (states : List DfaRow) (i : DfaStateIdx) (k : Nat) : Option Edge :=
  states[i]?.bind fun s => s.edges[k]?

/-- The state that a walk leads to, if each of its choices is there. -/
def follow (states : List DfaRow) : DfaStateIdx → List Nat → Option DfaStateIdx
  | i, [] => some i
  | i, k :: walk => (edge? states i k).bind fun e => follow states e.target walk

/-- Some walk leads from one state to another. -/
def Leads (states : List DfaRow) (i j : DfaStateIdx) : Prop :=
  ∃ walk, follow states i walk = some j

theorem getElem?_targets (k : Nat) :
    (targets states i)[k]? = (edge? states i k).map Edge.target := by
  unfold targets edge?
  cases states[i]? with
  | none => rfl
  | some s => rw [Option.bind_some, List.getElem?_map]

theorem follow_append (walk rest : List Nat) :
    follow states i (walk ++ rest) = (follow states i walk).bind fun j => follow states j rest := by
  induction walk generalizing i with
  | nil => rfl
  | cons k walk ih =>
    rw [List.cons_append, follow, follow, Option.bind_assoc]
    exact Option.bind_congr fun e _ => ih

theorem follow_concat (walk : List Nat) (k : Nat) :
    follow states i (walk ++ [k]) =
      (follow states i walk).bind fun j => (targets states j)[k]? := by
  rw [follow_append]
  refine Option.bind_congr fun j _ => ?_
  rw [getElem?_targets, follow]
  cases edge? states j k <;> rfl

theorem Leads.trans {m : DfaStateIdx} (h : Leads states i j) (h' : Leads states j m) :
    Leads states i m := by
  obtain ⟨walk, hwalk⟩ := h
  obtain ⟨rest, hrest⟩ := h'
  exact ⟨walk ++ rest, by rw [follow_append, hwalk, Option.bind_some, hrest]⟩

theorem Leads.of_mem_targets (h : j ∈ targets states i) : Leads states i j := by
  obtain ⟨k, hk⟩ := List.mem_iff_getElem?.1 h
  exact ⟨[k], by rw [← List.nil_append [k], follow_concat, follow, Option.bind_some, hk]⟩

/-- What holds of a state, and of the targets of every state it holds of, holds wherever walks
lead. -/
theorem Leads.induction {P : DfaStateIdx → Prop} (h : Leads states i j) (hi : P i)
    (hstep : ∀ i, P i → ∀ t ∈ targets states i, P t) : P j := by
  obtain ⟨walk, hwalk⟩ := h
  induction walk using List.reverseRecOn generalizing j with
  | nil =>
    obtain rfl : i = j := Option.some.inj hwalk
    exact hi
  | append_singleton walk k ih =>
    rw [follow_concat, Option.bind_eq_some_iff] at hwalk
    obtain ⟨m, hm, hk⟩ := hwalk
    exact hstep m (ih hm) j (List.mem_of_getElem? hk)

/-! ### Exploring -/

theorem subset_explore (n : Nat) : seen ⊆ explore states n frontier seen := by
  induction n generalizing frontier seen with
  | zero => exact List.Subset.refl _
  | succ n ih =>
    unfold explore
    split
    · exact List.Subset.refl _
    · exact List.Subset.trans (List.subset_append_left _ _) ih

/-- A state is new in a round if it is a target and has not been seen. -/
theorem mem_fresh_iff : i ∈ (frontier.flatMap (targets states)).eraseDups.filter
    (fun i => !seen.contains i) ↔ (∃ j ∈ frontier, i ∈ targets states j) ∧ i ∉ seen := by
  simp

/-- What holds of the targets of every state it holds of is kept by exploring. -/
theorem forall_mem_explore {P : DfaStateIdx → Prop}
    (hstep : ∀ i, P i → ∀ t ∈ targets states i, P t) (n : Nat) (hfrontier : ∀ i ∈ frontier, P i)
    (hseen : ∀ i ∈ seen, P i) : ∀ i ∈ explore states n frontier seen, P i := by
  induction n generalizing frontier seen with
  | zero => exact hseen
  | succ n ih =>
    unfold explore
    split
    · exact hseen
    · have hfresh : ∀ i ∈ (frontier.flatMap (targets states)).eraseDups.filter
          (fun i => !seen.contains i), P i := by
        intro t ht
        obtain ⟨⟨i, hi, ht⟩, -⟩ := mem_fresh_iff.1 ht
        exact hstep i (hfrontier i hi) t ht
      exact ih hfresh (List.forall_mem_append.2 ⟨hseen, hfresh⟩)

/-- States that have just been found are new, and each is found once. -/
theorem nodup_seen_append_fresh (states : List DfaRow) (frontier : List DfaStateIdx)
    (h : seen.Nodup) : (seen ++ (frontier.flatMap (targets states)).eraseDups.filter
      fun i => !seen.contains i).Nodup := by
  refine List.Nodup.append h ((nodup_eraseDups _).filter _) fun i hi hfresh => ?_
  exact (mem_fresh_iff.1 hfresh).2 hi

theorem nodup_explore (h : seen.Nodup) (n : Nat) : (explore states n frontier seen).Nodup := by
  induction n generalizing frontier seen with
  | zero => exact h
  | succ n ih =>
    unfold explore
    split
    · exact h
    · exact ih (nodup_seen_append_fresh states frontier h)

/-- With a round for each state that has not been seen, exploring leaves no target out. -/
theorem targets_subset_explore (hwithin : ∀ i, ∀ t ∈ targets states i, t < states.length)
    {n : Nat} (hseen : seen.Nodup) (hlt : ∀ i ∈ seen, i < states.length)
    (hold : ∀ i ∈ seen, i ∉ frontier → targets states i ⊆ seen)
    (hrounds : states.length ≤ n + seen.length) :
    ∀ i ∈ explore states n frontier seen, targets states i ⊆ explore states n frontier seen := by
  induction n generalizing frontier seen with
  | zero =>
    rw [Nat.zero_add] at hrounds
    exact fun i _ t ht => mem_of_length_le hseen hlt hrounds (hwithin i t ht)
  | succ n ih =>
    have hfound {t : DfaStateIdx} : t ∈ (frontier.flatMap (targets states)).eraseDups.filter
        (fun i => !seen.contains i) ↔ (∃ i ∈ frontier, t ∈ targets states i) ∧ t ∉ seen :=
      mem_fresh_iff
    have hnodup := nodup_seen_append_fresh states frontier hseen
    unfold explore
    split
    · rename_i hnone
      rw [hnone] at hfound
      intro i hi t ht
      by_contra hnew
      by_cases hfrontier : i ∈ frontier
      · exact List.not_mem_nil (hfound.2 ⟨⟨i, hfrontier, ht⟩, hnew⟩)
      · exact hnew (hold i hi hfrontier ht)
    · rename_i hsome
      generalize (frontier.flatMap (targets states)).eraseDups.filter
        (fun i => !seen.contains i) = fresh at hfound hnodup hsome
      have hpos : 0 < fresh.length := List.length_pos_iff.2 hsome
      refine ih hnodup (fun i hi => ?_) (fun i hi hnot => ?_) ?_
      · rcases List.mem_append.1 hi with hi | hi
        · exact hlt i hi
        · obtain ⟨⟨m, -, hm⟩, -⟩ := hfound.1 hi
          exact hwithin m i hm
      · have hi : i ∈ seen := (List.mem_append.1 hi).resolve_right hnot
        intro t ht
        by_cases ht' : t ∈ seen
        · exact List.mem_append_left _ ht'
        · by_cases hfrontier : i ∈ frontier
          · exact List.mem_append_right _ (hfound.2 ⟨⟨i, hfrontier, ht⟩, ht'⟩)
          · exact absurd (hold i hi hfrontier ht) ht'
      · rw [List.length_append]
        omega

/-- **Exploring finds the states that walks lead to.** -/
theorem mem_reachable_iff (hwithin : ∀ i, ∀ t ∈ targets states i, t < states.length)
    (hstarts : ∀ i ∈ starts, i < states.length) :
    i ∈ reachable states starts ↔ ∃ start ∈ starts, Leads states start i := by
  constructor
  · have hhere : ∀ i ∈ starts.eraseDups, ∃ start ∈ starts, Leads states start i :=
      fun i hi => ⟨i, List.mem_eraseDups.1 hi, [], rfl⟩
    refine forall_mem_explore (fun i hi t ht => ?_) _ hhere hhere i
    obtain ⟨start, hstart, hleads⟩ := hi
    exact ⟨start, hstart, hleads.trans (.of_mem_targets ht)⟩
  · rintro ⟨start, hstart, hleads⟩
    refine hleads.induction (subset_explore _ (List.mem_eraseDups.2 hstart)) ?_
    exact targets_subset_explore hwithin (nodup_eraseDups _)
      (fun i hi => hstarts i (List.mem_eraseDups.1 hi)) (fun i hi hnot => absurd hi hnot)
      (Nat.le_add_right _ _)

theorem mem_reachable_singleton_iff (hwithin : ∀ i, ∀ t ∈ targets states i, t < states.length)
    (hinitial : initial < states.length) :
    i ∈ reachable states [initial] ↔ Leads states initial i := by
  rw [mem_reachable_iff hwithin (by simpa using hinitial)]
  simp only [List.mem_singleton, exists_eq_left]

theorem nodup_reachable (states : List DfaRow) (starts : List DfaStateIdx) :
    (reachable states starts).Nodup :=
  nodup_explore (nodup_eraseDups _) _

/-! ### Arrivals -/

/-- A way into a state. -/
inductive Arrival where
  /-- The start, in the initial state. -/
  | start
  /-- The edge at a position of a state. -/
  | edge (source : DfaStateIdx) (position : Nat)
deriving DecidableEq

/-- The state that is arrived at. -/
def Arrival.state? (states : List DfaRow) (initial : DfaStateIdx) : Arrival → Option DfaStateIdx
  | start => some initial
  | edge source position => (targets states source)[position]?

/-- The way in exists, and begins in a state that walks lead to. -/
def Arrival.IsOpen (states : List DfaRow) (initial : DfaStateIdx) : Arrival → Prop
  | start => True
  | edge source _ => Leads states initial source

/-- There are two ways into the state. -/
def EnteredTwice (states : List DfaRow) (initial i : DfaStateIdx) : Prop :=
  ∃ a b : Arrival, a ≠ b ∧ a.IsOpen states initial ∧ b.IsOpen states initial ∧
    a.state? states initial = some i ∧ b.state? states initial = some i

/-- The state is arrived at twice exactly if there are two ways into it. -/
theorem one_lt_count_arrivals_iff (hwithin : ∀ i, ∀ t ∈ targets states i, t < states.length)
    (hinitial : initial < states.length) :
    1 < (arrivals states initial).count i ↔ EnteredTwice states initial i := by
  have hreachable {j : DfaStateIdx} : j ∈ reachable states [initial] ↔ Leads states initial j :=
    mem_reachable_singleton_iff hwithin hinitial
  -- all ways in, in the order of the arrivals
  let ways : List Arrival := .start :: (reachable states [initial]).flatMap fun j =>
    (List.range (targets states j).length).map (.edge j)
  have hways {a : Arrival} : a ∈ ways ↔
      a.IsOpen states initial ∧ (a.state? states initial).isSome = true := by
    cases a with
    | start => simp [ways, Arrival.IsOpen, Arrival.state?]
    | edge j k => simp [ways, Arrival.IsOpen, Arrival.state?, hreachable]
  have hnodup : ways.Nodup := by
    refine List.nodup_cons.2 ⟨by simp, List.nodup_flatMap.2 ⟨fun j _ => ?_, ?_⟩⟩
    · exact List.nodup_range.map fun k k' h => (Arrival.edge.inj h).2
    · refine (nodup_reachable states [initial]).imp fun {j j'} hne a ha ha' => ?_
      obtain ⟨k, -, rfl⟩ := List.mem_map.1 ha
      obtain ⟨k', -, heq⟩ := List.mem_map.1 ha'
      exact hne (Arrival.edge.inj heq).1.symm
  have harrivals : (arrivals states initial).map some = ways.map (·.state? states initial) := by
    rw [arrivals, List.map_cons, List.map_cons, List.map_flatMap, List.map_flatMap]
    congr 1
    refine List.flatMap_congr fun j _ => List.ext_getElem? fun k => ?_
    rw [List.map_map, List.getElem?_map, List.getElem?_map]
    by_cases hk : k < (targets states j).length
    · simp [hk, Arrival.state?]
    · simp [hk]
  have hcount : (arrivals states initial).count i =
      ((arrivals states initial).map some).count (some i) :=
    (List.count_map_of_injective _ some (Option.some_injective _) i).symm
  rw [hcount, harrivals, one_lt_count_map_iff hnodup]
  constructor
  · rintro ⟨a, ha, b, hb, hne, hai, hbi⟩
    exact ⟨a, b, hne, (hways.1 ha).1, (hways.1 hb).1, hai, hbi⟩
  · rintro ⟨a, b, hne, ha, hb, hai, hbi⟩
    exact ⟨a, hways.2 ⟨ha, by rw [hai]; rfl⟩, b, hways.2 ⟨hb, by rw [hbi]; rfl⟩, hne, hai, hbi⟩

/-- A state is shared if walks lead to it from a state that is entered twice. -/
theorem mem_shared_iff (hwithin : ∀ i, ∀ t ∈ targets states i, t < states.length)
    (hinitial : initial < states.length) :
    i ∈ shared states initial ↔ ∃ m, EnteredTwice states initial m ∧ Leads states m i := by
  have hlt : ∀ m ∈ arrivals states initial, m < states.length := by
    intro m hm
    rcases List.mem_cons.1 hm with rfl | hm
    · exact hinitial
    · obtain ⟨j, -, hm⟩ := List.mem_flatMap.1 hm
      exact hwithin j m hm
  have hmem {m : DfaStateIdx} : (m ∈ (arrivals states initial).filter fun m =>
      1 < (arrivals states initial).count m) ↔ EnteredTwice states initial m := by
    rw [← one_lt_count_arrivals_iff hwithin hinitial, List.mem_filter, decide_eq_true_eq]
    exact and_iff_right_of_imp fun h => List.count_pos_iff.1 (Nat.lt_trans Nat.zero_lt_one h)
  rw [shared, mem_reachable_iff hwithin fun m hm => hlt m (List.mem_of_mem_filter hm)]
  exact ⟨fun ⟨m, hm, h⟩ => ⟨m, hmem.1 hm, h⟩, fun ⟨m, hm, h⟩ => ⟨m, hmem.2 hm, h⟩⟩

/-! ### Single walks -/

/-- The walk leads to the state, and no other does. -/
def IsOnlyWalk (states : List DfaRow) (initial : DfaStateIdx) (walk : List Nat)
    (i : DfaStateIdx) : Prop :=
  follow states initial walk = some i ∧ ∀ other, follow states initial other = some i → other = walk

/-- Two walks lead to a state that is entered twice, one for each way in. -/
theorem exists_ne_of_enteredTwice (h : EnteredTwice states initial i) :
    ∃ walk other, walk ≠ other ∧ follow states initial walk = some i ∧
      follow states initial other = some i := by
  obtain ⟨a, b, hne, ha, hb, hai, hbi⟩ := h
  have hedge {j : DfaStateIdx} {k : Nat} {walk : List Nat}
      (hwalk : follow states initial walk = some j) (hk : (targets states j)[k]? = some i) :
      follow states initial (walk ++ [k]) = some i := by
    rw [follow_concat, hwalk, Option.bind_some, hk]
  cases a with
  | start =>
    cases b with
    | start => exact absurd rfl hne
    | edge j k =>
      obtain ⟨walk, hwalk⟩ := hb
      exact ⟨[], walk ++ [k], by simp, hai, hedge hwalk hbi⟩
  | edge j k =>
    obtain ⟨walk, hwalk⟩ := ha
    cases b with
    | start => exact ⟨walk ++ [k], [], by simp, hedge hwalk hai, hbi⟩
    | edge j' k' =>
      obtain ⟨other, hother⟩ := hb
      refine ⟨walk ++ [k], other ++ [k'], fun heq => hne ?_, hedge hwalk hai, hedge hother hbi⟩
      -- equal walks have equal beginnings, and so come from the same state
      obtain ⟨rfl, rfl⟩ := List.append_singleton_inj.1 heq
      rw [Option.some.inj (hwalk.symm.trans hother)]

/-- Unless a state is shared, two walks to it are equal. -/
theorem eq_of_follow (hshared : ¬ ∃ m, EnteredTwice states initial m ∧ Leads states m i)
    {walk other : List Nat} (hwalk : follow states initial walk = some i)
    (hother : follow states initial other = some i) : walk = other := by
  have htwice : ¬ EnteredTwice states initial i := fun h => hshared ⟨i, h, [], rfl⟩
  induction walk using List.reverseRecOn generalizing i other with
  | nil =>
    cases other using List.reverseRecOn with
    | nil => rfl
    | append_singleton other k =>
      rw [follow_concat, Option.bind_eq_some_iff] at hother
      obtain ⟨j, hj, hk⟩ := hother
      exact absurd ⟨.start, .edge j k, nofun, trivial, ⟨other, hj⟩, hwalk, hk⟩ htwice
  | append_singleton walk k ih =>
    rw [follow_concat, Option.bind_eq_some_iff] at hwalk
    obtain ⟨j, hj, hk⟩ := hwalk
    cases other using List.reverseRecOn with
    | nil => exact absurd ⟨.edge j k, .start, nofun, ⟨walk, hj⟩, trivial, hk, hother⟩ htwice
    | append_singleton other k' =>
      rw [follow_concat, Option.bind_eq_some_iff] at hother
      obtain ⟨j', hj', hk'⟩ := hother
      have hsame : Arrival.edge j k = .edge j' k' := by
        by_contra hne
        exact htwice ⟨_, _, hne, ⟨walk, hj⟩, ⟨other, hj'⟩, hk, hk'⟩
      obtain ⟨rfl, rfl⟩ := Arrival.edge.inj hsame
      -- the state before is not shared either
      have hbefore : ¬ ∃ m, EnteredTwice states initial m ∧ Leads states m j := fun ⟨m, hm, h⟩ =>
        hshared ⟨m, hm, h.trans (.of_mem_targets (List.mem_of_getElem? hk))⟩
      rw [ih hbefore hj hj' fun h => hbefore ⟨j, h, [], rfl⟩]

/-- **The single states are those that exactly one walk leads to.** -/
theorem mem_singles_iff (hwithin : ∀ i, ∀ t ∈ targets states i, t < states.length)
    (hinitial : initial < states.length) :
    i ∈ singles states initial ↔ ∃ walk, IsOnlyWalk states initial walk i := by
  have hsingles : i ∈ singles states initial ↔
      Leads states initial i ∧ ¬ ∃ m, EnteredTwice states initial m ∧ Leads states m i := by
    rw [← mem_reachable_singleton_iff hwithin hinitial, ← mem_shared_iff hwithin hinitial, singles,
      List.mem_filter]
    simp
  rw [hsingles]
  constructor
  · rintro ⟨⟨walk, hwalk⟩, hshared⟩
    exact ⟨walk, hwalk, fun other hother => eq_of_follow hshared hother hwalk⟩
  · rintro ⟨walk, hwalk, honly⟩
    refine ⟨⟨walk, hwalk⟩, fun ⟨m, hm, rest, hrest⟩ => ?_⟩
    obtain ⟨w, w', hne, hw, hw'⟩ := exists_ne_of_enteredTwice hm
    have h := honly (w ++ rest) (by rw [follow_append, hw, Option.bind_some, hrest])
    have h' := honly (w' ++ rest) (by rw [follow_append, hw', Option.bind_some, hrest])
    exact hne (List.append_cancel_right (h.trans h'.symm))

theorem nodup_singles (states : List DfaRow) (initial : DfaStateIdx) :
    (singles states initial).Nodup :=
  (nodup_reachable states [initial]).filter _

/-- The state accepts the symbol. -/
def Accepts (states : List DfaRow) (symbol : SymbolIdx) (i : DfaStateIdx) : Prop :=
  states[i]?.bind DfaRow.accept = some symbol

instance (states : List DfaRow) (symbol : SymbolIdx) : DecidablePred (Accepts states symbol) :=
  fun i => inferInstanceAs (Decidable (states[i]?.bind DfaRow.accept = some symbol))

/-- The state accepts the symbol, and exactly one walk leads to it. -/
def IsSingleAccept (states : List DfaRow) (initial : DfaStateIdx) (symbol : SymbolIdx)
    (i : DfaStateIdx) : Prop :=
  Accepts states symbol i ∧ ∃ walk, IsOnlyWalk states initial walk i

/-- A symbol is counted once exactly if it is accepted in one single state. -/
theorem count_accepts_eq_one_iff (hwithin : ∀ i, ∀ t ∈ targets states i, t < states.length)
    (hinitial : initial < states.length) {symbol : SymbolIdx} :
    (accepts states initial).count symbol = 1 ↔
      ∃ i, IsSingleAccept states initial symbol i ∧
        ∀ j, IsSingleAccept states initial symbol j → j = i := by
  rw [accepts, List.count_filterMap, List.countP_eq_length_filter, List.length_eq_one_iff]
  have hmem {i : DfaStateIdx} : i ∈ (singles states initial).filter
      (fun i => (states[i]?.bind DfaRow.accept) == some symbol) ↔
      IsSingleAccept states initial symbol i := by
    rw [List.mem_filter, mem_singles_iff hwithin hinitial, beq_iff_eq]
    exact and_comm
  have hnodup : ((singles states initial).filter fun i =>
      (states[i]?.bind DfaRow.accept) == some symbol).Nodup := (nodup_singles _ _).filter _
  constructor
  · rintro ⟨i, hi⟩
    simp only [hi, List.mem_singleton] at hmem
    exact ⟨i, hmem.1 rfl, fun j hj => hmem.2 hj⟩
  · rintro ⟨i, hi, hunique⟩
    refine ⟨i, List.perm_singleton.1 ((List.perm_ext_iff_of_nodup hnodup
      (List.nodup_singleton i)).2 fun j => ?_)⟩
    rw [hmem, List.mem_singleton]
    exact ⟨hunique j, fun h => h ▸ hi⟩

end SinglePath

end CompiledGrammar
