import CompiledGrammar.Text.Buffer
import Mathlib.Data.List.Basic

/-!
# Slices of a text

A text is cut at byte offsets, which must be *boundaries*: places between characters, or ends of the
text (`Utf8.IsBoundary`).

* `Utf8.dropBytes?_eq_some` and `Utf8.takeBytes?_eq_some` say when a cut succeeds and what it gives.
* The slice between two boundaries in order exists (`Buffer.exists_slice?`), and slices that follow
  one another are joined to a slice (`Buffer.slice?_append`).
-/

namespace CompiledGrammar

namespace Utf8

theorem byteLength_eq_zero {cs : List Char} : byteLength cs = 0 ↔ cs = [] := by
  cases cs with
  | nil => simp
  | cons c cs =>
    have := Char.utf8Size_pos c
    simp only [byteLength_cons, reduceCtorEq, iff_false]
    omega

theorem dropBytes?_eq_some {n : Nat} {cs rest : List Char} :
    dropBytes? n cs = some rest ↔ ∃ before, before ++ rest = cs ∧ byteLength before = n := by
  fun_induction dropBytes? n cs with
  | case1 cs =>
    simp only [byteLength_eq_zero, exists_eq_right, List.nil_append, Option.some.injEq]
    exact eq_comm
  | case2 n =>
    simp only [reduceCtorEq, false_iff]
    rintro ⟨before, happend, hlen⟩
    rw [(List.append_eq_nil_iff.1 happend).1] at hlen
    cases hlen
  | case3 n c cs hle ih =>
    rw [ih]
    clear ih
    constructor
    · rintro ⟨before, rfl, hlen⟩
      refine ⟨c :: before, rfl, ?_⟩
      rw [byteLength_cons]
      omega
    · rintro ⟨before, happend, hlen⟩
      cases before with
      | nil => cases hlen
      | cons d before =>
        cases happend
        refine ⟨before, rfl, ?_⟩
        rw [byteLength_cons] at hlen
        omega
  | case4 n c cs hgt =>
    simp only [reduceCtorEq, false_iff]
    rintro ⟨before, happend, hlen⟩
    cases before with
    | nil => cases hlen
    | cons d before =>
      cases happend
      rw [byteLength_cons] at hlen
      omega

theorem takeBytes?_eq_some {n : Nat} {cs front : List Char} :
    takeBytes? n cs = some front ↔ ∃ rest, front ++ rest = cs ∧ byteLength front = n := by
  fun_induction takeBytes? n cs generalizing front with
  | case1 cs =>
    simp only [byteLength_eq_zero, Option.some.injEq]
    constructor
    · rintro rfl
      exact ⟨cs, rfl, rfl⟩
    · rintro ⟨_, -, hfront⟩
      exact hfront.symm
  | case2 n =>
    simp only [reduceCtorEq, false_iff]
    rintro ⟨rest, happend, hlen⟩
    rw [(List.append_eq_nil_iff.1 happend).1] at hlen
    cases hlen
  | case3 n c cs hle ih =>
    rw [Option.map_eq_some_iff]
    constructor
    · rintro ⟨tail, htail, rfl⟩
      obtain ⟨rest, rfl, hlen⟩ := ih.1 htail
      refine ⟨rest, rfl, ?_⟩
      rw [byteLength_cons]
      omega
    · rintro ⟨rest, happend, hlen⟩
      cases front with
      | nil => cases hlen
      | cons d front =>
        cases happend
        refine ⟨front, ih.2 ⟨rest, rfl, ?_⟩, rfl⟩
        rw [byteLength_cons] at hlen
        omega
  | case4 n c cs hgt =>
    simp only [reduceCtorEq, false_iff]
    rintro ⟨rest, happend, hlen⟩
    cases front with
    | nil => cases hlen
    | cons d front =>
      cases happend
      rw [byteLength_cons] at hlen
      omega

/-! ### Boundaries -/

/-- The offset is that of a character of the text, or of its end. -/
def IsBoundary (cs : List Char) (n : Nat) : Prop :=
  ∃ before after, before ++ after = cs ∧ byteLength before = n

variable {cs : List Char} {m n : Nat}

theorem isBoundary_iff : IsBoundary cs n ↔ (dropBytes? n cs).isSome = true := by
  simp only [Option.isSome_iff_exists, dropBytes?_eq_some, IsBoundary]
  exact exists_comm

/-- Between two boundaries in order lie whole characters. -/
theorem IsBoundary.exists_between (hm : IsBoundary cs m) (hn : IsBoundary cs n) (hle : m ≤ n) :
    ∃ before middle after, before ++ (middle ++ after) = cs ∧ byteLength before = m ∧
      byteLength middle = n - m := by
  obtain ⟨before, rest, rfl, rfl⟩ := hm
  obtain ⟨upto, after, happend, rfl⟩ := hn
  rcases List.append_eq_append_iff.1 happend with ⟨middle, rfl, rfl⟩ | ⟨middle, rfl, rfl⟩
  · -- the second boundary lies before the first, so they are the same
    rw [byteLength_append] at hle
    obtain rfl := byteLength_eq_zero.1 (show byteLength middle = 0 by omega)
    exact ⟨upto, [], rest, by simp, by simp, by simp⟩
  · exact ⟨before, middle, after, rfl, rfl, by rw [byteLength_append]; omega⟩

end Utf8

/-! ### Slices -/

namespace Buffer

open Utf8 (IsBoundary)

variable {b : Buffer} {i j k : Nat} {s t : String}

theorem slice?_eq_some : b.slice? ⟨i, j⟩ = some s ↔
    ∃ before middle after, before ++ (middle ++ after) = b.chars ∧ Utf8.byteLength before = i ∧
      Utf8.byteLength middle = j - i ∧ String.ofList middle = s := by
  simp only [slice?, Option.bind_eq_some_iff, Option.map_eq_some_iff, Utf8.dropBytes?_eq_some,
    Utf8.takeBytes?_eq_some]
  constructor
  · rintro ⟨_, ⟨before, happend, hbefore⟩, middle, ⟨after, rfl, hmiddle⟩, hs⟩
    exact ⟨before, middle, after, happend, hbefore, hmiddle, hs⟩
  · rintro ⟨before, middle, after, happend, hbefore, hmiddle, hs⟩
    exact ⟨_, ⟨before, happend, hbefore⟩, middle, ⟨after, rfl, hmiddle⟩, hs⟩

theorem exists_slice? (hi : IsBoundary b.chars i) (hj : IsBoundary b.chars j) (hle : i ≤ j) :
    ∃ s, b.slice? ⟨i, j⟩ = some s := by
  obtain ⟨before, middle, after, happend, hbefore, hmiddle⟩ := hi.exists_between hj hle
  exact ⟨_, slice?_eq_some.2 ⟨before, middle, after, happend, hbefore, hmiddle, rfl⟩⟩

/-- Two slices, of which the second starts where the first ends, make one slice. -/
theorem slice?_append (hs : b.slice? ⟨i, j⟩ = some s) (ht : b.slice? ⟨j, k⟩ = some t) (hij : i ≤ j)
    (hjk : j ≤ k) : b.slice? ⟨i, k⟩ = some (s ++ t) := by
  obtain ⟨before, middle, rest, happend, hbefore, hmiddle, rfl⟩ := slice?_eq_some.1 hs
  obtain ⟨upto, middle', after, happend', hupto, hmiddle', rfl⟩ := slice?_eq_some.1 ht
  -- what follows the first slice is what the second is a part of
  have hrest : Utf8.dropBytes? j b.chars = some rest := by
    refine Utf8.dropBytes?_eq_some.2 ⟨before ++ middle, by rw [List.append_assoc, happend], ?_⟩
    rw [Utf8.byteLength_append]
    omega
  rw [Utf8.dropBytes?_eq_some.2 ⟨upto, happend', hupto⟩, Option.some.injEq] at hrest
  subst hrest
  refine slice?_eq_some.2 ⟨before, middle ++ middle', after, by simpa using happend, hbefore, ?_,
    String.ofList_append⟩
  rw [Utf8.byteLength_append]
  omega

end Buffer

end CompiledGrammar
