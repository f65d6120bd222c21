import CompiledGrammar.Proofs.Grammar.Derived
import CompiledGrammar.Table.Sample

/-!
# Which characters of an edge can be matched

In ASCII every character of an edge leads somewhere.  Beyond ASCII only one range is asked, the last
one that starts at or before the code point, and that may not be the one that holds it.

* The ranges of a state are sorted by their start (`Lookup.pairwise_ranges`), so that the one that
  is asked is known (`Lookup.getLast?_takeWhile_iff`).
* A code point of an edge leads nowhere exactly if the range that is asked ends before it
  (`Lookup.transition_eq_dead_iff`).
* The ranges follow one another without overlap exactly if those of the edges do not overlap beyond
  ASCII (`Lookup.pairwise_lt_ranges_iff`), and then no code point of an edge is lost.

`Grammar.Loaded.covers_of_disjoint` says so of every loaded grammar, and
`Grammar.covers_accented` that a grammar whose ranges are nested loads and loses code points.
-/

namespace CompiledGrammar

/-! ### Sorted ranges -/

namespace Lookup

variable {rs : List TransitionRange} {r : TransitionRange} {c : Nat}
  {charset : CharSetIdx → List CodeRange} {s : DfaRow}

/-- The range is the last one that starts at or before the code point. -/
def IsAsked (rs : List TransitionRange) (c : Nat) (r : TransitionRange) : Prop :=
  ∃ before after, rs = before ++ r :: after ∧ r.first ≤ c ∧ ∀ later ∈ after, c < later.first

/-- The first range that starts after a code point is followed only by such. -/
theorem lt_first_of_mem_dropWhile (hsorted : rs.Pairwise fun r s => r.first ≤ s.first)
    (h : r ∈ rs.dropWhile (·.first ≤ c)) : c < r.first := by
  induction rs with
  | nil => cases h
  | cons next rs ih =>
    obtain ⟨hnext, hrest⟩ := List.pairwise_cons.1 hsorted
    by_cases hle : next.first ≤ c
    · rw [List.dropWhile_cons, if_pos (decide_eq_true hle)] at h
      exact ih hrest h
    · rw [List.dropWhile_cons, if_neg (by simpa using hle)] at h
      have hlt := Nat.lt_of_not_le hle
      rcases List.mem_cons.1 h with rfl | h
      · exact hlt
      · exact Nat.lt_of_lt_of_le hlt (hnext r h)

theorem getLast?_takeWhile_iff (hsorted : rs.Pairwise fun r s => r.first ≤ s.first) :
    (rs.takeWhile (·.first ≤ c)).getLast? = some r ↔ IsAsked rs c r := by
  constructor
  · intro h
    obtain ⟨before, hbefore⟩ := List.getLast?_eq_some_iff.1 h
    have hmem : r ∈ rs.takeWhile (·.first ≤ c) := List.mem_of_getLast? h
    have hsplit : rs = before ++ r :: rs.dropWhile (·.first ≤ c) := by
      conv_lhs => rw [← List.takeWhile_append_dropWhile (p := (·.first ≤ c)) (l := rs), hbefore]
      rw [List.append_assoc, List.singleton_append]
    exact ⟨before, _, hsplit, by simpa using List.mem_takeWhile_imp hmem,
      fun later hlater => lt_first_of_mem_dropWhile hsorted hlater⟩
  · rintro ⟨before, after, rfl, hle, hafter⟩
    have hbefore : ∀ s ∈ before, decide (s.first ≤ c) = true := fun s hs =>
      decide_eq_true (Nat.le_trans
        ((List.pairwise_append.1 hsorted).2.2 s hs r List.mem_cons_self) hle)
    have hnext : after.takeWhile (·.first ≤ c) = [] := by
      cases after with
      | nil => rfl
      | cons next after =>
        refine List.takeWhile_cons_of_neg ?_
        simpa using hafter next List.mem_cons_self
    rw [List.takeWhile_append_of_pos hbefore, List.takeWhile_cons, if_pos (decide_eq_true hle),
      hnext, List.getLast?_concat]

/-- Only one range is asked. -/
theorem IsAsked.unique {other : TransitionRange}
    (hsorted : rs.Pairwise fun r s => r.first ≤ s.first) (h : IsAsked rs c r)
    (h' : IsAsked rs c other) : other = r := by
  have hlast := (getLast?_takeWhile_iff hsorted).2 h
  exact Option.some.inj (((getLast?_takeWhile_iff hsorted).2 h').symm.trans hlast)

/-- Where a range starts at or before a code point, some range is asked. -/
theorem exists_isAsked (hsorted : rs.Pairwise fun r s => r.first ≤ s.first) (hr : r ∈ rs)
    (hle : r.first ≤ c) : ∃ asked, IsAsked rs c asked := by
  have hsome : (rs.takeWhile (·.first ≤ c)).getLast?.isSome = true := by
    cases rs with
    | nil => cases hr
    | cons first rest =>
      have hfirst : first.first ≤ r.first := by
        rcases List.mem_cons.1 hr with rfl | hr
        · exact Nat.le_refl _
        · exact (List.pairwise_cons.1 hsorted).1 r hr
      rw [List.takeWhile_cons, if_pos (decide_eq_true (Nat.le_trans hfirst hle))]
      exact List.getLast?_isSome.2 (List.cons_ne_nil _ _)
  obtain ⟨asked, hasked⟩ := Option.isSome_iff_exists.1 hsome
  exact ⟨asked, (getLast?_takeWhile_iff hsorted).1 hasked⟩

/-! ### Ranges of a state -/

theorem pairwise_ranges : (ofState charset s).ranges.Pairwise fun r s => r.first ≤ s.first :=
  pairwise_sortRanges _

/-- Ranges of a state begin beyond ASCII, and do not run backwards. -/
theorem bounds_of_mem_ranges (h : r ∈ (ofState charset s).ranges) :
    asciiSize ≤ r.first ∧ r.first ≤ r.last := by
  obtain ⟨whole, hwhole, hcut⟩ := mem_ranges_ofState.1 h
  obtain ⟨hle, rfl⟩ := beyondAscii_eq_some.1 hcut
  exact ⟨Nat.le_max_right _ _, Nat.max_le.2 ⟨first_le_last_of_mem hwhole, hle⟩⟩

theorem edgeTransition_ne_dead (e : Edge) : edgeTransition s e ≠ .dead := by
  unfold edgeTransition
  split
  · split <;> nofun
  · nofun

theorem target_ne_dead (h : r ∈ edgeRanges charset s) : r.target ≠ .dead := by
  obtain ⟨e, -, hr⟩ := List.mem_flatMap.1 h
  obtain ⟨range, -, rfl⟩ := List.mem_map.1 hr
  exact edgeTransition_ne_dead e

/-! ### Lost code points -/

/-- Beyond ASCII, a code point leads nowhere exactly if the range that is asked ends before it. -/
theorem transition_eq_dead_of_isAsked (hc : asciiSize ≤ c)
    (h : IsAsked (ofState charset s).ranges c r) :
    (ofState charset s).transition c = .dead ↔ r.last < c := by
  have hlast := (getLast?_takeWhile_iff pairwise_ranges).2 h
  have hmem := (List.takeWhile_sublist _).subset (List.mem_of_getLast? hlast)
  obtain ⟨whole, hwhole, hcut⟩ := mem_ranges_ofState.1 hmem
  have hlive : r.target ≠ .dead := by
    have hne := target_ne_dead hwhole
    obtain ⟨-, rfl⟩ := beyondAscii_eq_some.1 hcut
    exact hne
  rw [transition_of_ascii_le hc, hlast, Option.elim_some]
  split
  · rename_i hle
    exact iff_of_false hlive (Nat.not_lt.2 hle)
  · rename_i hgt
    exact iff_of_true rfl (Nat.lt_of_not_le hgt)

/-- A code point of an edge leads nowhere exactly if the range that is asked ends before it. -/
theorem transition_eq_dead_iff (hc : asciiSize ≤ c) (hr : r ∈ edgeRanges charset s)
    (hholds : r.Holds c) : (ofState charset s).transition c = .dead ↔
      ∃ asked, IsAsked (ofState charset s).ranges c asked ∧ asked.last < c := by
  have hcut := beyondAscii_eq_some.2 ⟨Nat.le_trans hc hholds.2, rfl⟩
  obtain ⟨asked, hasked⟩ := exists_isAsked pairwise_ranges (mem_ranges_ofState.2 ⟨r, hr, hcut⟩)
    (Nat.max_le.2 ⟨hholds.1, hc⟩)
  rw [transition_eq_dead_of_isAsked hc hasked]
  constructor
  · intro hlt
    exact ⟨asked, hasked, hlt⟩
  · rintro ⟨other, hother, hlt⟩
    rwa [hasked.unique pairwise_ranges hother] at hlt

/-- No code point beyond ASCII is in two ranges of the edges. -/
def IsDisjoint (charset : CharSetIdx → List CodeRange) (s : DfaRow) : Prop :=
  (edgeRanges charset s).Pairwise fun r s => ∀ c, asciiSize ≤ c → r.Holds c → ¬ s.Holds c

theorem isDisjoint_iff : IsDisjoint charset s ↔
    ((edgeRanges charset s).filterMap beyondAscii).Pairwise TransitionRange.Apart := by
  rw [IsDisjoint, List.pairwise_filterMap]
  refine List.Pairwise.iff fun r s => ⟨fun h r' hr s' hs c hrc hsc => ?_, fun h c hc hrc hsc => ?_⟩
  · have hc : asciiSize ≤ c := by
      obtain ⟨-, rfl⟩ := beyondAscii_eq_some.1 hr
      exact Nat.le_trans (Nat.le_max_right _ _) hrc.1
    exact h c hc ((holds_of_beyondAscii hr hc).1 hrc) ((holds_of_beyondAscii hs hc).1 hsc)
  · have hr := beyondAscii_eq_some.2 ⟨Nat.le_trans hc hrc.2, rfl⟩
    have hs := beyondAscii_eq_some.2 ⟨Nat.le_trans hc hsc.2, rfl⟩
    exact h _ hr _ hs c ((holds_of_beyondAscii hr hc).2 hrc) ((holds_of_beyondAscii hs hc).2 hsc)

/-- The ranges follow one another exactly if those of the edges do not overlap. -/
theorem pairwise_lt_ranges_iff :
    ((ofState charset s).ranges.Pairwise fun r s => r.last < s.first) ↔ IsDisjoint charset s := by
  have hperm : (ofState charset s).ranges.Perm ((edgeRanges charset s).filterMap beyondAscii) :=
    sortRanges_perm _
  rw [isDisjoint_iff, ← hperm.pairwise_iff fun h => symm h]
  have hsorted : (ofState charset s).ranges.Pairwise fun r s => r.first ≤ s.first :=
    pairwise_ranges
  constructor
  · intro h
    exact h.imp fun hlt c hr hs => Nat.not_lt.2 (Nat.le_trans hs.1 hr.2) hlt
  · intro h
    refine (h.and hsorted).imp_of_mem fun {r s} hr hs ⟨hapart, hle⟩ => ?_
    -- where the second range starts, the first one must have ended
    by_contra hlt
    exact hapart s.first ⟨hle, Nat.le_of_not_lt hlt⟩
      ⟨Nat.le_refl _, (bounds_of_mem_ranges hs).2⟩

end Lookup

namespace Grammar

variable {g : Grammar}

/-- The code point is in the character set of an edge of the state. -/
def Covers (g : Grammar) (s : DfaRow) (c : Nat) : Prop :=
  ∃ e ∈ s.edges, g.InCharset e.charset c

instance (g : Grammar) (s : DfaRow) : DecidablePred (g.Covers s) :=
  fun c => inferInstanceAs (Decidable (∃ e ∈ s.edges, g.InCharset e.charset c))

/-- **Characters of an edge can be matched, if ranges do not overlap.**  In a loaded grammar the
ranges of a state are sorted by their start.  They follow one another exactly if no code point
beyond ASCII is in two ranges of the edges, and then every code point of an edge leads somewhere.
In general a code point of an edge is lost exactly if it is beyond ASCII and the last range that
starts at or before it ends before it. -/
theorem Loaded.covers_of_disjoint (hg : g.Loaded) {q : DfaState} (hq : q ∈ g.dfaStates) :
    (q.lookup.ranges.Pairwise fun r s => r.first ≤ s.first) ∧
    ((q.lookup.ranges.Pairwise fun r s => r.last < s.first) ↔
      Lookup.IsDisjoint g.charsetRanges q.toDfaRow) ∧
    (∀ c, c < asciiSize → g.Covers q.toDfaRow c → q.lookup.transition c ≠ .dead) ∧
    ∀ c, asciiSize ≤ c → g.Covers q.toDfaRow c →
      (q.lookup.transition c = .dead ↔
        ∃ asked, Lookup.IsAsked q.lookup.ranges c asked ∧ asked.last < c) ∧
      (Lookup.IsDisjoint g.charsetRanges q.toDfaRow → q.lookup.transition c ≠ .dead) := by
  have hrange {c : Nat} (h : g.Covers q.toDfaRow c) :
      ∃ r ∈ Lookup.edgeRanges g.charsetRanges q.toDfaRow, r.Holds c := by
    obtain ⟨e, he, hmem⟩ := h
    obtain ⟨r, hr, hholds, -⟩ := exists_holds_iff.2 ⟨e, he, hmem, rfl⟩
    exact ⟨r, hr, hholds⟩
  rw [hg.lookup_eq hq]
  refine ⟨Lookup.pairwise_ranges, Lookup.pairwise_lt_ranges_iff, fun c hc hcovers => ?_,
    fun c hc hcovers => ?_⟩
  · obtain ⟨r, hr, hholds⟩ := hrange hcovers
    obtain ⟨last, hlast, -, htransition⟩ := Lookup.exists_holds_of_lt hc hr hholds
    rw [htransition]
    exact Lookup.target_ne_dead hlast
  obtain ⟨r, hr, hholds⟩ := hrange hcovers
  refine ⟨Lookup.transition_eq_dead_iff hc hr hholds, fun hdisjoint => ?_⟩
  rw [Lookup.transition_of_ge hc (Lookup.isDisjoint_iff.1 hdisjoint) hr hholds]
  exact Lookup.target_ne_dead hr

set_option maxRecDepth 10000 in
/-- Ranges that do not overlap, as within a name, lose nothing: `ÿ` leads on. -/
theorem covers_of_disjoint_name : ∃ g, ofBytes Sample.accented.toBytes = .ok g ∧
    ∃ q ∈ g.dfaStates, (q.lookup.ranges.Pairwise fun r s => r.first ≤ s.first) ∧
      (q.lookup.ranges.Pairwise fun r s => r.last < s.first) ∧
      g.Covers q.toDfaRow 'ÿ'.toNat ∧ q.lookup.transition 'ÿ'.toNat ≠ .dead := by
  have hcheck : loadsWith Sample.accented.toBytes (fun g => g.dfaStates[3]?.any fun q =>
      decide (q.lookup.ranges.Pairwise fun r s => r.last < s.first) &&
        decide (g.Covers q.toDfaRow 'ÿ'.toNat)) = true := by
    decide +kernel
  obtain ⟨g, hload, hg⟩ := exists_of_loadsWith hcheck
  obtain ⟨q, hq, hstate⟩ := (Option.any_eq_true _ _).1 hg
  obtain ⟨hafter, hcovers⟩ := by simpa using hstate
  obtain ⟨hsorted, hdisjoint, -, hlost⟩ :=
    (Loaded.ofBytes hload).covers_of_disjoint (Array.mem_of_getElem? hq)
  have hlive := (hlost _ (by decide) hcovers).2 (hdisjoint.1 hafter)
  exact ⟨g, hload, q, Array.mem_of_getElem? hq, hsorted, hafter, hcovers, hlive⟩

set_option maxRecDepth 10000 in
/-- A class that names `Ø` to `ö` within `À` to `ÿ` loses what comes after them: `ÿ` leads
nowhere. -/
theorem covers_accented : ∃ g, ofBytes Sample.accented.toBytes = .ok g ∧
    ∃ q ∈ g.dfaStates, ¬ (q.lookup.ranges.Pairwise fun r s => r.last < s.first) ∧
      g.Covers q.toDfaRow 'ÿ'.toNat ∧ q.lookup.transition 'ÿ'.toNat = .dead := by
  have hcheck : loadsWith Sample.accented.toBytes (fun g => g.dfaStates[0]?.any fun q =>
      !decide (q.lookup.ranges.Pairwise fun r s => r.last < s.first) &&
        (decide (g.Covers q.toDfaRow 'ÿ'.toNat) &&
          q.lookup.transition 'ÿ'.toNat == .dead)) = true := by
    decide +kernel
  obtain ⟨g, hload, hg⟩ := exists_of_loadsWith hcheck
  obtain ⟨q, hq, hstate⟩ := (Option.any_eq_true _ _).1 hg
  simp only [Bool.and_eq_true, Bool.not_eq_true', decide_eq_false_iff_not, decide_eq_true_eq,
    beq_iff_eq] at hstate
  exact ⟨g, hload, q, Array.mem_of_getElem? hq, hstate⟩

end Grammar

end CompiledGrammar
