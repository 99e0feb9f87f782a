import ApiElements.Json.Parser
import ApiElements.Json.Printer

/-!
This module contains the reading of whole numbers that were written, and the bound on whole numbers
that are read.
-/

namespace ApiElements

namespace Numeral

theorem digitsValue_toDigits (n : Nat) : digitsValue (Nat.toDigits 10 n) = n := by
  have := Nat.ofDigitChars_ten_toDigits (n := n)
  rw [Nat.ofDigitChars_eq_foldl] at this
  exact this

theorem spanDigits_append {digits rest : List Char} (hdigits : ∀ c ∈ digits, c.isDigit)
    (hrest : ∀ c ∈ rest.head?, ¬ c.isDigit) : spanDigits (digits ++ rest) = (digits, rest) := by
  unfold spanDigits
  rw [List.takeWhile_append_of_pos hdigits, List.dropWhile_append_of_pos hdigits]
  cases rest with
  | nil => simp
  | cons c rest =>
    have : ¬ c.isDigit := hrest c (by simp)
    simp [this]

theorem digitValue_lt {c : Char} (h : c.isDigit) : c.toNat - '0'.toNat < 10 := by
  have hle : c.val ≤ 57 := by
    simp only [Char.isDigit, Bool.and_eq_true, decide_eq_true_eq] at h
    exact h.2
  have : c.toNat ≤ 57 := hle
  have : '0'.toNat = 48 := by rfl
  omega

theorem foldl_digits_lt {digits : List Char} (h : ∀ c ∈ digits, c.isDigit) (init : Nat)
    : digits.foldl (fun n c => 10 * n + (c.toNat - '0'.toNat)) init
        <
      (init + 1) * Nat.pow 10 digits.length := by
  induction digits generalizing init with
  | nil => simp
  | cons c cs ih =>
    have hpow : Nat.pow 10 (c :: cs).length = Nat.pow 10 cs.length * 10 := by rfl
    rw [List.foldl_cons, hpow]
    have hc := digitValue_lt (h c (by simp))
    have hcs := ih (fun d hd => h d (List.mem_cons_of_mem _ hd)) (10 * init + (c.toNat - '0'.toNat))
    calc
      _ < (10 * init + (c.toNat - '0'.toNat) + 1) * Nat.pow 10 cs.length := hcs
      _ ≤ ((init + 1) * 10) * Nat.pow 10 cs.length := by
        apply Nat.mul_le_mul_right
        omega
      _ = (init + 1) * (Nat.pow 10 cs.length * 10) := by
        rw [Nat.mul_assoc, Nat.mul_comm 10]

theorem digitsValue_lt {digits : List Char} (h : ∀ c ∈ digits, c.isDigit)
    : digitsValue digits < Nat.pow 10 digits.length := by
  have := foldl_digits_lt h 0
  rwa [Nat.zero_add, Nat.one_mul] at this

theorem toDigits_ne_zero_cons {n : Nat} (h : 0 < n) (rest : List Char)
    : Nat.toDigits 10 n ≠ '0' :: rest := by
  induction n using Nat.strongRecOn generalizing rest with
  | ind n ih =>
    rw [Nat.toDigits_eq_if (by omega)]
    split
    . next hlt =>
      intro heq
      injection heq with heq _
      revert h heq
      have : ∀ m < 10, 0 < m → m.digitChar ≠ '0' := by decide
      exact this n hlt
    . intro heq
      cases hdigits : Nat.toDigits 10 (n / 10) with
      | nil => exact Nat.toDigits_ne_nil hdigits
      | cons c cs =>
        rw [hdigits] at heq
        injection heq with heq _
        subst heq
        exact ih (n / 10) (by omega) (by omega) cs hdigits

end Numeral

namespace Json

/--
What follows a number in a text does not make it longer.
-/
def Ends (rest : List Char) : Prop :=
  ∀ c ∈ rest.head?, ¬ c.isDigit ∧ c ≠ '.' ∧ c ≠ 'e' ∧ c ≠ 'E'

theorem readWhole_toDigits {n : Nat} {rest : List Char} (hrest : Ends rest)
    : readWhole (Nat.toDigits 10 n ++ rest) = some (Nat.toDigits 10 n, rest) := by
  by_cases hn : n = 0
  . subst hn
    rfl
  . have hdigits : ∀ c ∈ Nat.toDigits 10 n, c.isDigit := by
      intro c hc
      exact Nat.isDigit_of_mem_toDigits (by omega) (by omega) hc
    have hspan := Numeral.spanDigits_append hdigits (fun c hc => (hrest c hc).1)
    cases hcons : Nat.toDigits 10 n with
    | nil => exact absurd hcons Nat.toDigits_ne_nil
    | cons c cs =>
      rw [hcons] at hdigits hspan
      have hc := hdigits c (by simp)
      unfold readWhole
      split
      . next heq =>
        injection heq with heq _
        subst heq
        exact absurd hcons (Numeral.toDigits_ne_zero_cons (by omega) cs)
      . next heq =>
        injection heq with heq _
        subst heq
        rw [if_pos hc, ← hspan]
      . contradiction

theorem readFraction_of_ends {rest : List Char} (h : Ends rest) : readFraction rest = none := by
  unfold readFraction
  split
  . exact absurd rfl (h '.' (by simp)).2.1
  . rfl

theorem readExponent_of_ends {rest : List Char} (h : Ends rest) : readExponent rest = none := by
  unfold readExponent
  split
  . next c rest =>
    have hc := h c (by simp)
    rw [if_neg (by simp [hc.2.2.1, hc.2.2.2])]
  . rfl

theorem length_toDigits_le_of_lt_pow {n k : Nat} (hk : 0 < k) (h : n < Nat.pow 10 k)
    : (Nat.toDigits 10 n).length ≤ k := by
  exact (Nat.length_toDigits_le_iff (by omega) hk).2 h

theorem isShort_iff {n : Int} : isShort n ↔ n.natAbs < Nat.pow 10 Numeral.digitLimit := by
  unfold isShort wholeLimit
  rw [decide_eq_true_iff]

theorem length_toDigits_of_isShort {n : Int} (h : isShort n)
    : ¬ Numeral.digitLimit < (Nat.toDigits 10 n.natAbs).length := by
  rw [Nat.not_lt]
  exact length_toDigits_le_of_lt_pow (by decide) (isShort_iff.1 h)

theorem isShort_of_digits {digits : List Char} {n : Int} (h : ∀ c ∈ digits, c.isDigit)
    (hlength : ¬ Numeral.digitLimit < digits.length) (hn : n.natAbs = Numeral.digitsValue digits)
    : isShort n := by
  -- The limit stays a variable here, so that its power of ten is never multiplied out.
  have hpow : ∀ k, digits.length ≤ k → Nat.pow 10 digits.length ≤ Nat.pow 10 k := by
    intro k hk
    exact Nat.pow_le_pow_right (by omega) hk
  rw [isShort_iff, hn]
  apply Nat.lt_of_lt_of_le (Numeral.digitsValue_lt h)
  exact hpow _ (Nat.not_lt.1 hlength)

theorem isDigit_of_readWhole {cs whole rest : List Char} (h : readWhole cs = some (whole, rest))
    : ∀ c ∈ whole, c.isDigit := by
  unfold readWhole at h
  split at h
  . injection h with h
    injection h with hwhole _
    subst hwhole
    simp
  . split at h
    . injection h with h
      injection h with hwhole _
      subst hwhole
      intro c hc
      exact List.all_eq_true.1 List.all_takeWhile c hc
    . contradiction
  . contradiction

theorem isShort_of_readNumber {cs rest : List Char} {v : Value}
    (h : readNumber cs = .ok (v, rest))
    : (∃ d, v = .double d) ∨ ∃ n, v = .int n ∧ isShort n := by
  unfold readNumber at h
  dsimp only at h
  split at h
  . contradiction
  . next whole _ hwhole =>
    split at h
    . injection h with h
      injection h with hv _
      exact .inl ⟨_, hv.symm⟩
    . split at h
      . contradiction
      . next hlength =>
        injection h with h
        injection h with hv _
        refine .inr ⟨_, hv.symm, isShort_of_digits (isDigit_of_readWhole hwhole) hlength ?_⟩
        split
        . exact Int.natAbs_neg _
        . rfl

theorem readNumber_of_unsigned {cs whole rest : List Char} (hsign : ∀ tail, cs ≠ '-' :: tail)
    (hwhole : readWhole cs = some (whole, rest)) (hrest : Ends rest)
    (hlength : ¬ Numeral.digitLimit < whole.length)
    : readNumber cs = .ok (.int (Numeral.digitsValue whole), rest) := by
  unfold readNumber
  split
  . next heq =>
    split at heq
    . next tail => exact absurd rfl (hsign tail)
    . injection heq with hnegative hunsigned
      subst hnegative hunsigned
      simp only [hwhole, readFraction_of_ends hrest, Option.getD_none, readExponent_of_ends hrest,
        Option.isSome_none, Bool.or_self, Bool.false_eq_true, if_false, if_neg hlength]

theorem readNumber_of_negative {cs whole rest : List Char}
    (hwhole : readWhole cs = some (whole, rest)) (hrest : Ends rest)
    (hlength : ¬ Numeral.digitLimit < whole.length)
    : readNumber ('-' :: cs) = .ok (.int (-Numeral.digitsValue whole), rest) := by
  unfold readNumber
  simp only [hwhole, readFraction_of_ends hrest, Option.getD_none, readExponent_of_ends hrest,
    Option.isSome_none, Bool.or_self, Bool.false_eq_true, if_false, if_neg hlength, if_true]

theorem isDigit_head_toDigits (n : Nat)
    : ∃ c cs, Nat.toDigits 10 n = c :: cs ∧ c.isDigit := by
  cases hdigits : Nat.toDigits 10 n with
  | nil => exact absurd hdigits Nat.toDigits_ne_nil
  | cons c cs =>
    have hc : c ∈ Nat.toDigits 10 n := by simp [hdigits]
    exact ⟨c, cs, rfl, Nat.isDigit_of_mem_toDigits (by omega) (by omega) hc⟩

/--
A whole number that was written is read again, whatever follows it that is no part of a number.
-/
theorem readNumber_wholeText {n : Int} {rest : List Char} (hn : isShort n) (hrest : Ends rest)
    : readNumber (wholeText n ++ rest) = .ok (.int n, rest) := by
  unfold wholeText
  split
  . next hneg =>
    have habs : -(n.natAbs : Int) = n := by omega
    rw [List.cons_append, readNumber_of_negative (readWhole_toDigits hrest) hrest
      (length_toDigits_of_isShort hn), Numeral.digitsValue_toDigits, habs]
  . next hpos =>
    have habs : (n.natAbs : Int) = n := by omega
    have hsign : ∀ tail, Nat.toDigits 10 n.natAbs ++ rest ≠ '-' :: tail := by
      intro tail heq
      obtain ⟨c, cs, hdigits, hc⟩ := isDigit_head_toDigits n.natAbs
      rw [hdigits, List.cons_append] at heq
      injection heq with heq _
      subst heq
      exact absurd hc (by decide)
    rw [readNumber_of_unsigned hsign (readWhole_toDigits hrest) hrest
      (length_toDigits_of_isShort hn), Numeral.digitsValue_toDigits, habs]

theorem find?_names_wholeText (n : Int) (rest : List Char)
    : names.find? (fun entry => entry.1.toList.isPrefixOf (wholeText n ++ rest)) = none := by
  obtain ⟨c, cs, hdigits, hc⟩ := isDigit_head_toDigits n.natAbs
  have hne : ∀ d, ¬ d.isDigit → d ≠ c := by
    rintro d hd rfl
    contradiction
  unfold wholeText
  rw [hdigits]
  split
  . simp [names, List.isPrefixOf, hne]
  . simp [names, List.isPrefixOf, hne]

end Json

end ApiElements
