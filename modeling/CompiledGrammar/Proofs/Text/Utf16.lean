import CompiledGrammar.Text.Utf16

/-!
# UTF-16 there and back

Decoding undoes encoding (`Utf16.decode_encode`), whatever the characters: a `Char` is never half of
a surrogate pair, so the units of one character are not mistaken for those of two.  Only the
character `U+0000` has a zero among its units (`Utf16.ne_zero_of_mem_encode`), so a zero unit can
end a text that does not contain it.

The other way round, encoding undoes decoding if no surrogate stands alone
(`Utf16.encode_decode`), which can be seen from what is decoded (`Utf16.isWellFormed_of_decode`).
-/

namespace CompiledGrammar

namespace Utf16

/-- Characters are code points that are not surrogates. -/
theorem toNat_lt_or_between (c : Char) :
    c.toNat < 0xD800 ∨ 0xE000 ≤ c.toNat ∧ c.toNat < 0x110000 := by
  have hvalid : c.val.toNat < 0xD800 ∨ 0xDFFF < c.val.toNat ∧ c.val.toNat < 0x110000 := c.valid
  have htoNat : c.toNat = c.val.toNat := rfl
  omega

/-- A unit that does not start a pair is a character of its own. -/
theorem decode_cons {u : UInt16} (h : ¬ IsHigh u) (us : List UInt16) :
    decode (u :: us) = single u :: decode us := by
  cases us with
  | nil => rfl
  | cons v us => rw [decode, if_neg fun hpair => h hpair.1]

/-- The units of a pair, which leaves ten bits to each of them. -/
theorem toNat_halves {c : Char} (h : 0x10000 ≤ c.toNat) :
    (UInt16.ofNat (0xD800 + (c.toNat - 0x10000) / 0x400)).toNat =
        0xD800 + (c.toNat - 0x10000) / 0x400 ∧
      (UInt16.ofNat (0xDC00 + (c.toNat - 0x10000) % 0x400)).toNat =
        0xDC00 + (c.toNat - 0x10000) % 0x400 := by
  have hc := toNat_lt_or_between c
  exact ⟨UInt16.toNat_ofNat_of_lt' (Nat.lt_trans (by omega : _ < 0xDC00) (by decide)),
    UInt16.toNat_ofNat_of_lt' (Nat.lt_trans (by omega : _ < 0xE000) (by decide))⟩

theorem decode_units (c : Char) (us : List UInt16) : decode (units c ++ us) = c :: decode us := by
  have hc := toNat_lt_or_between c
  unfold units
  split
  · -- one unit, which is no surrogate
    rename_i hlt
    have hunit := UInt16.toNat_ofNat_of_lt' hlt
    have hhigh : ¬ IsHigh (UInt16.ofNat c.toNat) := by unfold IsHigh; omega
    have hlow : ¬ IsLow (UInt16.ofNat c.toNat) := by unfold IsLow; omega
    rw [List.singleton_append, decode_cons hhigh, single, if_neg (by simp [hhigh, hlow]), hunit,
      Char.ofNat_toNat]
  · -- a pair
    rename_i hge
    obtain ⟨hhigh, hlow⟩ := toNat_halves (Nat.le_of_not_lt hge)
    have hbits : c.toNat - 0x10000 < 0x100000 := by omega
    have hpair : 0x10000 + (0xD800 + (c.toNat - 0x10000) / 0x400 - 0xD800) * 0x400 +
        (0xDC00 + (c.toNat - 0x10000) % 0x400 - 0xDC00) = c.toNat := by omega
    rw [List.cons_append, List.singleton_append, decode,
      if_pos ⟨by unfold IsHigh; omega, by unfold IsLow; omega⟩, pair, hhigh, hlow, hpair,
      Char.ofNat_toNat]

/-- **Decoding undoes encoding.** -/
theorem decode_encode (cs : List Char) : decode (encode cs) = cs := by
  induction cs with
  | nil => rfl
  | cons c cs ih =>
    have hcons : encode (c :: cs) = units c ++ encode cs := rfl
    rw [hcons, decode_units, ih]

/-- Only `U+0000` has a zero unit. -/
theorem ne_zero_of_mem_encode {cs : List Char} (h : '\x00' ∉ cs) {u : UInt16}
    (hu : u ∈ encode cs) : u ≠ 0 := by
  obtain ⟨c, hc, huc⟩ := List.mem_flatMap.1 hu
  have hbound := toNat_lt_or_between c
  rintro rfl
  unfold units at huc
  split at huc
  · rename_i hlt
    have hunit := congrArg UInt16.toNat (List.mem_singleton.1 huc)
    rw [UInt16.toNat_ofNat_of_lt' hlt, UInt16.toNat_zero] at hunit
    have hzero : c = '\x00' := by rw [← Char.ofNat_toNat c, ← hunit]
    exact h (hzero ▸ hc)
  · simp only [List.mem_cons, List.not_mem_nil, or_false] at huc
    rcases huc with huc | huc <;>
    · have hunit := congrArg UInt16.toNat huc
      rw [UInt16.toNat_ofNat_of_lt' (Nat.lt_trans (by omega : _ < 0xE000) (by decide)),
        UInt16.toNat_zero] at hunit
      omega

/-! ### Well-formed units -/

/-- All surrogates are in pairs. -/
inductive IsWellFormed : List UInt16 → Prop
  /-- No units at all. -/
  | nil : IsWellFormed []
  /-- A unit that is no surrogate comes first. -/
  | single {u : UInt16} {us : List UInt16} :
      ¬ IsHigh u → ¬ IsLow u → IsWellFormed us → IsWellFormed (u :: us)
  /-- A pair comes first. -/
  | pair {u v : UInt16} {us : List UInt16} :
      IsHigh u → IsLow v → IsWellFormed us → IsWellFormed (u :: v :: us)

theorem toNat_ofNat {n : Nat} (h : n.isValidChar) : (Char.ofNat n).toNat = n := by
  rw [Char.ofNat, dif_pos h]
  rfl

theorem units_single {u : UInt16} (hhigh : ¬ IsHigh u) (hlow : ¬ IsLow u) :
    units (single u) = [u] := by
  have hbound : u.toNat < 0x10000 := u.toNat_lt
  have hvalid : u.toNat.isValidChar := by
    unfold IsHigh at hhigh
    unfold IsLow at hlow
    unfold Nat.isValidChar
    omega
  have hcode : (Char.ofNat u.toNat).toNat = u.toNat := toNat_ofNat hvalid
  rw [single, if_neg (by simp [hhigh, hlow]), units, hcode, if_pos hbound, UInt16.ofNat_toNat]

theorem units_pair {u v : UInt16} (hhigh : IsHigh u) (hlow : IsLow v) :
    units (pair u v) = [u, v] := by
  unfold IsHigh at hhigh
  unfold IsLow at hlow
  have hvalid : (0x10000 + (u.toNat - 0xD800) * 0x400 + (v.toNat - 0xDC00)).isValidChar := by
    unfold Nat.isValidChar
    omega
  have hcode : (pair u v).toNat =
      0x10000 + (u.toNat - 0xD800) * 0x400 + (v.toNat - 0xDC00) :=
    toNat_ofNat hvalid
  have hfirst : 0xD800 + ((pair u v).toNat - 0x10000) / 0x400 = u.toNat := by omega
  have hsecond : 0xDC00 + ((pair u v).toNat - 0x10000) % 0x400 = v.toNat := by omega
  rw [units, if_neg (by omega), hfirst, hsecond, UInt16.ofNat_toNat, UInt16.ofNat_toNat]

/-- **Encoding undoes decoding**, if all surrogates are in pairs. -/
theorem encode_decode {us : List UInt16} (h : IsWellFormed us) : encode (decode us) = us := by
  induction h with
  | nil => rfl
  | @single u us hhigh hlow _ ih =>
    have hcons : encode (single u :: decode us) = units (single u) ++ encode (decode us) := rfl
    rw [decode_cons hhigh, hcons, units_single hhigh hlow, ih, List.singleton_append]
  | @pair u v us hhigh hlow _ ih =>
    have hcons : encode (pair u v :: decode us) = units (pair u v) ++ encode (decode us) := rfl
    rw [decode, if_pos ⟨hhigh, hlow⟩, hcons, units_pair hhigh hlow, ih, List.cons_append,
      List.singleton_append]

theorem isWellFormed_units_append (c : Char) {us : List UInt16} (h : IsWellFormed us) :
    IsWellFormed (units c ++ us) := by
  have hc := toNat_lt_or_between c
  unfold units
  split
  · rename_i hlt
    have hunit := UInt16.toNat_ofNat_of_lt' hlt
    exact .single (by unfold IsHigh; omega) (by unfold IsLow; omega) h
  · rename_i hge
    obtain ⟨hhigh, hlow⟩ := toNat_halves (Nat.le_of_not_lt hge)
    have hbits : c.toNat - 0x10000 < 0x100000 := by omega
    exact .pair (by unfold IsHigh; omega) (by unfold IsLow; omega) h

/-- Encoded text is well-formed. -/
theorem isWellFormed_encode (cs : List Char) : IsWellFormed (encode cs) := by
  induction cs with
  | nil => exact .nil
  | cons c cs ih => exact isWellFormed_units_append c ih

/-- Units are well-formed if no replacement character is among what they are decoded as. -/
theorem isWellFormed_of_decode {us : List UInt16} (h : '\uFFFD' ∉ decode us) :
    IsWellFormed us := by
  -- a surrogate that stands alone would have been replaced
  have hsingle : ∀ {u : UInt16}, '\uFFFD' ≠ single u → ¬ IsHigh u ∧ ¬ IsLow u := fun hne =>
    not_or.1 fun hsurrogate => hne (if_pos hsurrogate).symm
  fun_induction decode us with
  | case1 => exact .nil
  | case2 u =>
    obtain ⟨hhigh, hlow⟩ := hsingle (List.ne_of_not_mem_cons h)
    exact .single hhigh hlow .nil
  | case3 u v us hpair ih => exact .pair hpair.1 hpair.2 (ih (List.not_mem_of_not_mem_cons h))
  | case4 u v us _ ih =>
    obtain ⟨hhigh, hlow⟩ := hsingle (List.ne_of_not_mem_cons h)
    exact .single hhigh hlow (ih (List.not_mem_of_not_mem_cons h))

end Utf16

end CompiledGrammar
