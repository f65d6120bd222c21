import CompiledGrammar.Grammar.Lookup
import Mathlib.Data.List.Pairwise
import Mathlib.Data.List.TakeWhile

/-!
# Where a code point leads

`Lookup.ofState` cuts the ranges of the edges of a state at the end of ASCII, keeps the parts below
as a table and the parts above as a sorted list.  What comes out is stated here by the ranges alone.

* In ASCII, the last range that holds a code point decides (`Lookup.transition_of_lt`).
* Beyond it, the range that holds a code point decides, if no other one does so there
  (`Lookup.transition_of_ge`): the list is sorted, so that this range is the last one that starts at
  or before the code point (`Lookup.getLast?_takeWhile`).
* A code point leads along a range that holds it, if anywhere (`Lookup.exists_holds_of_ne_dead`,
  `Lookup.transition_eq_dead`).

Where ranges do not overlap at all, both tables come to the same (`Lookup.transition_of_holds`), as
if the ranges were gone through one by one (`Lookup.transition_eq_find?`).
-/

namespace CompiledGrammar

/-! ### Ranges -/

namespace TransitionRange

/-- The code point is in the range. -/
def Holds (r : TransitionRange) (c : Nat) : Prop :=
  r.first ≤ c ∧ c ≤ r.last

instance (r : TransitionRange) : DecidablePred r.Holds :=
  fun _ => inferInstanceAs (Decidable (_ ∧ _))

/-- No code point is in both ranges. -/
def Apart (r s : TransitionRange) : Prop :=
  ∀ c, r.Holds c → ¬ s.Holds c

instance : Std.Symm Apart :=
  ⟨fun _ _ h c hs hr => h c hr hs⟩

/-- Ranges of which one ends before the other starts are apart. -/
theorem apart_of_lt {r s : TransitionRange} (h : r.last < s.first ∨ s.last < r.first) :
    r.Apart s := by
  rintro c ⟨hr, hr'⟩ ⟨hs, hs'⟩
  omega

end TransitionRange

/-- Of ranges that are apart, only one holds a code point. -/
theorem eq_of_pairwise_apart {rs : List TransitionRange} (h : rs.Pairwise TransitionRange.Apart)
    {r s : TransitionRange} (hr : r ∈ rs) (hs : s ∈ rs) {c : Nat} (hrc : r.Holds c)
    (hsc : s.Holds c) : r = s := by
  by_contra hne
  exact h.forall hr hs hne c hrc hsc

namespace Lookup

variable {rs : List TransitionRange} {r : TransitionRange} {c : Nat}
  {charset : CharSetIdx → List CodeRange} {s : DfaRow}

/-- Ranges of edges do not run backwards. -/
theorem first_le_last_of_mem (h : r ∈ edgeRanges charset s) : r.first ≤ r.last := by
  obtain ⟨e, -, hr⟩ := List.mem_flatMap.1 h
  obtain ⟨range, hrange, rfl⟩ := List.mem_map.1 hr
  exact UInt16.le_iff_toNat_le.1 (by simpa using (List.mem_filter.1 hrange).2)

/-! ### Edges -/

/-- One of the ranges of a character set holds the code point. -/
def InSet (ranges : List CodeRange) (c : Nat) : Prop :=
  ∃ r ∈ ranges, r.first.toNat ≤ c ∧ c ≤ r.last.toNat

instance (ranges : List CodeRange) : DecidablePred (InSet ranges) :=
  fun c => inferInstanceAs (Decidable (∃ r ∈ ranges, r.first.toNat ≤ c ∧ c ≤ r.last.toNat))

/-- One of the ranges of an edge whose set has a code point holds it. -/
theorem InSet.exists_holds {ranges : List CodeRange} (h : InSet ranges c) (t : Transition) :
    ∃ r ∈ (ranges.filter fun r => r.first ≤ r.last).map fun r =>
        (⟨r.first.toNat, r.last.toNat, t⟩ : TransitionRange),
      r.Holds c ∧ r.target = t := by
  obtain ⟨range, hrange, hfirst, hlast⟩ := h
  -- a range that holds a code point does not run backwards
  have hle : range.first ≤ range.last := UInt16.le_iff_toNat_le.2 (Nat.le_trans hfirst hlast)
  exact ⟨_, List.mem_map_of_mem (List.mem_filter.2 ⟨hrange, decide_eq_true hle⟩),
    ⟨hfirst, hlast⟩, rfl⟩

/-- The ranges of a state that hold a code point are those of the edges whose sets have it. -/
theorem exists_holds_iff {t : Transition} :
    (∃ r ∈ edgeRanges charset s, r.Holds c ∧ r.target = t) ↔
      ∃ e ∈ s.edges, InSet (charset e.charset) c ∧ edgeTransition s e = t := by
  constructor
  · rintro ⟨r, hr, hholds, rfl⟩
    obtain ⟨e, he, hr⟩ := List.mem_flatMap.1 hr
    obtain ⟨range, hrange, rfl⟩ := List.mem_map.1 hr
    exact ⟨e, he, ⟨range, (List.mem_filter.1 hrange).1, hholds⟩, rfl⟩
  · rintro ⟨e, he, hmem, rfl⟩
    obtain ⟨r, hr, hholds, htarget⟩ := hmem.exists_holds (edgeTransition s e)
    exact ⟨r, List.mem_flatMap.2 ⟨e, he, hr⟩, hholds, htarget⟩

/-! ### ASCII -/

/-- The last range that holds a code point is the one whose target stays. -/
theorem getElem?_foldl_paint (rs : List TransitionRange) (table : Array Transition) (c : Nat) :
    (rs.foldl paint table)[c]? = table[c]?.map fun t =>
      ((rs.reverse.find? fun r => r.Holds c).map TransitionRange.target).getD t := by
  induction rs generalizing table with
  | nil => simp
  | cons r rs ih =>
    rw [List.foldl_cons, ih, paint, Array.getElem?_mapIdx, Option.map_map, List.reverse_cons,
      List.find?_append]
    congr 1
    funext t
    cases rs.reverse.find? fun r => r.Holds c with
    | some _ => rfl
    | none =>
      by_cases hc : r.Holds c
      · simp [hc, hc.1, hc.2]
      · have hc' : ¬ (r.first ≤ c ∧ c ≤ r.last) := hc
        simp [hc, hc']

theorem getElem?_ascii (charset : CharSetIdx → List CodeRange) (s : DfaRow) (c : Nat) :
    (ofState charset s).ascii[c]? = if c < asciiSize then
      some ((((edgeRanges charset s).reverse.find? fun r => r.Holds c).map
        TransitionRange.target).getD .dead) else none := by
  rw [ofState, getElem?_foldl_paint, Array.getElem?_replicate]
  split <;> rfl

/-- In ASCII, the last range that holds a code point decides. -/
theorem transition_of_lt (hc : c < asciiSize) :
    (ofState charset s).transition c =
      (((edgeRanges charset s).reverse.find? fun r => r.Holds c).map
        TransitionRange.target).getD .dead := by
  rw [transition, getElem?_ascii, if_pos hc]

/-- In ASCII, a code point that some range holds leads along one of those. -/
theorem exists_holds_of_lt (hc : c < asciiSize) (hr : r ∈ edgeRanges charset s)
    (hholds : r.Holds c) : ∃ q ∈ edgeRanges charset s, q.Holds c ∧
      (ofState charset s).transition c = q.target := by
  rw [transition_of_lt hc]
  cases hfind : (edgeRanges charset s).reverse.find? fun r => r.Holds c with
  | none =>
    have hnone := List.find?_eq_none.1 hfind r (List.mem_reverse.2 hr)
    exact absurd (decide_eq_true hholds) hnone
  | some q =>
    have hq : q.Holds c := by simpa using List.find?_some hfind
    exact ⟨q, List.mem_reverse.1 (List.mem_of_find?_eq_some hfind), hq, rfl⟩

/-! ### Beyond ASCII -/

theorem insertRange_perm (r : TransitionRange) (rs : List TransitionRange) :
    (insertRange r rs).Perm (r :: rs) := by
  induction rs with
  | nil => exact .refl _
  | cons first rest ih =>
    unfold insertRange
    split
    · exact (ih.cons first).trans (.swap r first rest)
    · exact .refl _

theorem pairwise_insertRange (r : TransitionRange)
    (h : rs.Pairwise fun r s => r.first ≤ s.first) :
    (insertRange r rs).Pairwise fun r s => r.first ≤ s.first := by
  induction rs with
  | nil => exact List.pairwise_singleton _ _
  | cons first rest ih =>
    obtain ⟨hfirst, hrest⟩ := List.pairwise_cons.1 h
    unfold insertRange
    split
    · rename_i hle
      refine List.pairwise_cons.2 ⟨fun s hs => ?_, ih hrest⟩
      rcases List.mem_cons.1 ((insertRange_perm r rest).mem_iff.1 hs) with rfl | hs
      · exact hle
      · exact hfirst s hs
    · rename_i hgt
      refine List.pairwise_cons.2 ⟨fun s hs => ?_, h⟩
      have hle : r.first ≤ first.first := Nat.le_of_not_le hgt
      rcases List.mem_cons.1 hs with rfl | hs
      · exact hle
      · exact Nat.le_trans hle (hfirst s hs)

theorem sortRanges_perm (rs : List TransitionRange) : (sortRanges rs).Perm rs := by
  have hfold (rs sorted : List TransitionRange) :
      (rs.foldl (fun sorted r => insertRange r sorted) sorted).Perm (sorted ++ rs) := by
    induction rs generalizing sorted with
    | nil => rw [List.foldl_nil, List.append_nil]
    | cons r rs ih =>
      refine (ih (insertRange r sorted)).trans ?_
      exact ((insertRange_perm r sorted).append_right rs).trans List.perm_middle.symm
  exact hfold rs []

theorem pairwise_sortRanges (rs : List TransitionRange) :
    (sortRanges rs).Pairwise fun r s => r.first ≤ s.first := by
  have hfold (rs sorted : List TransitionRange)
      (h : sorted.Pairwise fun r s => r.first ≤ s.first) :
      (rs.foldl (fun sorted r => insertRange r sorted) sorted).Pairwise
        fun r s => r.first ≤ s.first := by
    induction rs generalizing sorted with
    | nil => exact h
    | cons r rs ih => exact ih _ (pairwise_insertRange r h)
  exact hfold rs [] .nil

/-- In a sorted list, a range that holds a code point and is apart from all others is the last one
that starts at or before the code point. -/
theorem getLast?_takeWhile (hsorted : rs.Pairwise fun r s => r.first ≤ s.first)
    (hapart : rs.Pairwise TransitionRange.Apart) (hordered : ∀ s ∈ rs, s.first ≤ s.last)
    (hr : r ∈ rs) (hc : r.Holds c) : (rs.takeWhile (·.first ≤ c)).getLast? = some r := by
  obtain ⟨before, after, rfl⟩ := List.append_of_mem hr
  obtain ⟨-, hfrom, hbefore⟩ := List.pairwise_append.1 hsorted
  have hafter := (List.pairwise_cons.1 hfrom).1
  have hothers := (List.pairwise_cons.1 (List.pairwise_append.1 hapart).2.1).1
  have hupto : ∀ s ∈ before, decide (s.first ≤ c) = true := fun s hs =>
    decide_eq_true (Nat.le_trans (hbefore s hs r List.mem_cons_self) hc.1)
  -- the next range starts in the range or after it, and so after the code point
  have hnext : after.takeWhile (·.first ≤ c) = [] := by
    cases after with
    | nil => rfl
    | cons s after =>
      refine List.takeWhile_cons_of_neg fun hle => ?_
      have hle : s.first ≤ c := of_decide_eq_true hle
      have hmem : s ∈ before ++ r :: s :: after := by simp
      have hfirst : r.Holds s.first :=
        ⟨hafter s List.mem_cons_self, Nat.le_trans hle hc.2⟩
      exact hothers s List.mem_cons_self s.first hfirst ⟨Nat.le_refl _, hordered s hmem⟩
  have hself : (r :: after).takeWhile (·.first ≤ c) = [r] := by
    rw [List.takeWhile_cons, if_pos (decide_eq_true hc.1), hnext]
  rw [List.takeWhile_append_of_pos hupto, hself, List.getLast?_concat]

theorem beyondAscii_eq_some {q : TransitionRange} : beyondAscii r = some q ↔
    asciiSize ≤ r.last ∧ { r with first := max r.first asciiSize } = q := by
  unfold beyondAscii
  split
  · rename_i hle
    rw [Option.some.injEq, and_iff_right hle]
  · rename_i hgt
    exact ⟨nofun, fun h => absurd h.1 hgt⟩

/-- Beyond ASCII, cutting a range there leaves the code points as they are. -/
theorem holds_of_beyondAscii {q : TransitionRange} (h : beyondAscii r = some q)
    (hc : asciiSize ≤ c) : q.Holds c ↔ r.Holds c := by
  obtain ⟨-, rfl⟩ := beyondAscii_eq_some.1 h
  simp only [TransitionRange.Holds]
  omega

theorem transition_of_ascii_le (hc : asciiSize ≤ c) : (ofState charset s).transition c =
    (((ofState charset s).ranges.takeWhile (·.first ≤ c)).getLast?).elim .dead fun r =>
      if c ≤ r.last then r.target else .dead := by
  rw [transition, getElem?_ascii, if_neg (Nat.not_lt.2 hc)]
  cases ((ofState charset s).ranges.takeWhile (·.first ≤ c)).getLast? <;> rfl

theorem mem_ranges_ofState : r ∈ (ofState charset s).ranges ↔
    ∃ whole ∈ edgeRanges charset s, beyondAscii whole = some r := by
  rw [ofState, (sortRanges_perm _).mem_iff, List.mem_filterMap]

/-- Beyond ASCII, the range that holds a code point decides, if ranges do not overlap there. -/
theorem transition_of_ge (hc : asciiSize ≤ c)
    (hapart : ((edgeRanges charset s).filterMap beyondAscii).Pairwise TransitionRange.Apart)
    (hr : r ∈ edgeRanges charset s) (hholds : r.Holds c) :
    (ofState charset s).transition c = r.target := by
  have hcut := beyondAscii_eq_some.2 ⟨Nat.le_trans hc hholds.2, rfl⟩
  have hlast : ((ofState charset s).ranges.takeWhile (·.first ≤ c)).getLast? =
      some { r with first := max r.first asciiSize } := by
    refine getLast?_takeWhile (pairwise_sortRanges _) ?_ (fun q hq => ?_)
      (mem_ranges_ofState.2 ⟨r, hr, hcut⟩) ((holds_of_beyondAscii hcut hc).2 hholds)
    · exact (sortRanges_perm _).pairwise_iff (fun h => symm h) |>.2 hapart
    · obtain ⟨whole, hwhole, hq⟩ := mem_ranges_ofState.1 hq
      obtain ⟨hle, rfl⟩ := beyondAscii_eq_some.1 hq
      exact Nat.max_le.2 ⟨first_le_last_of_mem hwhole, hle⟩
  rw [transition_of_ascii_le hc, hlast]
  exact if_pos hholds.2

/-! ### All code points -/

/-- Where a code point leads is the target of a range that holds it. -/
theorem exists_holds_of_ne_dead (h : (ofState charset s).transition c ≠ .dead) :
    ∃ r ∈ edgeRanges charset s, r.Holds c ∧ (ofState charset s).transition c = r.target := by
  rcases Nat.lt_or_ge c asciiSize with hc | hc
  · rw [transition_of_lt hc] at h ⊢
    cases hfind : (edgeRanges charset s).reverse.find? fun r => r.Holds c with
    | none =>
      rw [hfind] at h
      exact absurd rfl h
    | some r =>
      have hholds : r.Holds c := by simpa using List.find?_some hfind
      exact ⟨r, List.mem_reverse.1 (List.mem_of_find?_eq_some hfind), hholds, rfl⟩
  · rw [transition_of_ascii_le hc] at h ⊢
    cases hlast : ((ofState charset s).ranges.takeWhile (·.first ≤ c)).getLast? with
    | none =>
      rw [hlast] at h
      exact absurd rfl h
    | some q =>
      rw [hlast, Option.elim_some] at h
      have hle : c ≤ q.last := by
        by_contra hgt
        exact h (if_neg hgt)
      have hmem := List.mem_of_getLast? hlast
      have hfirst : q.first ≤ c := by simpa using List.mem_takeWhile_imp hmem
      obtain ⟨whole, hwhole, hq⟩ :=
        mem_ranges_ofState.1 ((List.takeWhile_sublist _).subset hmem)
      refine ⟨whole, hwhole, (holds_of_beyondAscii hq hc).1 ⟨hfirst, hle⟩, ?_⟩
      obtain ⟨-, rfl⟩ := beyondAscii_eq_some.1 hq
      rw [Option.elim_some, if_pos hle]

/-- A code point that no range holds leads nowhere. -/
theorem transition_eq_dead (h : ∀ r ∈ edgeRanges charset s, ¬ r.Holds c) :
    (ofState charset s).transition c = .dead := by
  by_contra hlive
  obtain ⟨r, hr, hholds, -⟩ := exists_holds_of_ne_dead hlive
  exact h r hr hholds

/-- Where ranges do not overlap, the one that holds a code point decides. -/
theorem transition_of_holds (hapart : (edgeRanges charset s).Pairwise TransitionRange.Apart)
    (hr : r ∈ edgeRanges charset s) (hholds : r.Holds c) :
    (ofState charset s).transition c = r.target := by
  rcases Nat.lt_or_ge c asciiSize with hc | hc
  · obtain ⟨q, hmem, hq, htransition⟩ := exists_holds_of_lt hc hr hholds
    rw [htransition, eq_of_pairwise_apart hapart hmem hr hq hholds]
  · refine transition_of_ge hc (hapart.filterMap _ fun r s hrs q hq q' hq' => ?_) hr hholds
    -- what is cut off was apart before
    obtain ⟨-, rfl⟩ := beyondAscii_eq_some.1 hq
    obtain ⟨-, rfl⟩ := beyondAscii_eq_some.1 hq'
    intro c hrc hsc
    simp only [TransitionRange.Holds] at hrc hsc
    exact hrs c ⟨by omega, hrc.2⟩ ⟨by omega, hsc.2⟩

/-- Where ranges do not overlap, a transition is found by going through them. -/
theorem transition_eq_find? (hapart : (edgeRanges charset s).Pairwise TransitionRange.Apart)
    (c : Nat) : (ofState charset s).transition c =
      (((edgeRanges charset s).find? fun r => r.Holds c).map
        TransitionRange.target).getD .dead := by
  cases hfind : (edgeRanges charset s).find? fun r => r.Holds c with
  | none =>
    rw [Option.map_none, Option.getD_none]
    exact transition_eq_dead fun r hr => by simpa using List.find?_eq_none.1 hfind r hr
  | some r =>
    rw [Option.map_some, Option.getD_some]
    exact transition_of_holds hapart (List.mem_of_find?_eq_some hfind)
      (by simpa using List.find?_some hfind)

end Lookup

end CompiledGrammar
