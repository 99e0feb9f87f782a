import ApiElements.Json.Parser
import ApiElements.Json.Printer

/-!
This module contains the reading of strings that were written: every character is read from its
escape, also one that takes two 16-bit units.
-/

namespace ApiElements

namespace Hexadecimal

theorem digitValue?_digitChar : ∀ d < 16, digitValue? (Nat.digitChar d) = some d := by
  decide

theorem length_digits (width n : Nat) : (digits width n).length = width := by
  induction width generalizing n with
  | zero => rfl
  | succ width ih => simp [digits, ih]

theorem value?_digits (width n : Nat)
    : value? (digits width n) = some (n % Nat.pow 16 width) := by
  induction width generalizing n with
  | zero => simp [digits, value?, Nat.mod_one]
  | succ width ih =>
    have hlast := digitValue?_digitChar (n % 16) (by omega)
    have hrest := ih (n / 16)
    unfold value? at hrest ⊢
    rw [digits, List.foldlM_append, hrest]
    simp only [Option.bind_eq_bind, Option.bind_some, List.foldlM_cons, List.foldlM_nil, hlast,
      Option.map_some]
    have hpow : Nat.pow 16 (width + 1) = 16 * Nat.pow 16 width := Nat.mul_comm _ _
    rw [hpow, Nat.mod_mul, Nat.add_comm]
    rfl

end Hexadecimal

namespace Json

theorem readUnit_digits {unit : Nat} {rest : List Char} (hunit : unit < 0x10000) (hrest : rest ≠ [])
    : readUnit ('u' :: (Hexadecimal.digits 4 unit ++ rest)) = .ok (unit, rest) := by
  have hlength := Hexadecimal.length_digits 4 unit
  have hvalue := Hexadecimal.value?_digits 4 unit
  have hmod : unit % Nat.pow 16 4 = unit := Nat.mod_eq_of_lt hunit
  rw [hmod] at hvalue
  have hdrop : (Hexadecimal.digits 4 unit ++ rest).drop 4 = rest := List.drop_left' hlength
  have htake : (Hexadecimal.digits 4 unit ++ rest).take 4 = Hexadecimal.digits 4 unit :=
    List.take_left' hlength
  unfold readUnit
  simp only [List.drop_succ_cons, List.drop_zero, hdrop, htake, hvalue]
  rw [if_neg (by simpa using hrest)]

theorem isSurrogate_toNat (c : Char)
    : isHighSurrogate c.toNat = false ∧ isLowSurrogate c.toNat = false := by
  have hvalid : c.toNat < 0xD800 ∨ 0xDFFF < c.toNat ∧ c.toNat < 0x110000 := c.valid
  unfold isHighSurrogate isLowSurrogate
  constructor
  . simp only [Bool.and_eq_false_iff, decide_eq_false_iff_not]
    omega
  . simp only [Bool.and_eq_false_iff, decide_eq_false_iff_not]
    omega

theorem unitChar_toNat (c : Char) : unitChar c.toNat = c := by
  unfold unitChar
  rw [(isSurrogate_toNat c).1, (isSurrogate_toNat c).2]
  simp

theorem readUnicodeEscape_unit {c : Char} {rest : List Char} (hc : c.toNat < 0x10000)
    (hrest : rest ≠ [])
    : readUnicodeEscape ('u' :: (Hexadecimal.digits 4 c.toNat ++ rest)) = .ok (c, rest) := by
  unfold readUnicodeEscape
  rw [readUnit_digits hc hrest]
  simp only [bind, Except.bind]
  split
  . rw [(isSurrogate_toNat c).1, if_neg (by simp), unitChar_toNat]
  . rw [unitChar_toNat]

theorem surrogates_spec {c : Char} (hc : ¬ c.toNat < 0x10000) {high low : Nat}
    (h : surrogates c.toNat = (high, low))
    : isHighSurrogate high = true ∧ isLowSurrogate low = true ∧ high < 0x10000 ∧ low < 0x10000
        ∧ 0x10000 + (high - 0xD800) * 0x400 + (low - 0xDC00) = c.toNat := by
  have hvalid : c.toNat < 0xD800 ∨ 0xDFFF < c.toNat ∧ c.toNat < 0x110000 := c.valid
  unfold surrogates at h
  injection h with hhigh hlow
  unfold isHighSurrogate isLowSurrogate
  simp only [Bool.and_eq_true, decide_eq_true_eq]
  omega

theorem readUnicodeEscape_pair {c : Char} {rest : List Char} (hc : ¬ c.toNat < 0x10000)
    (hrest : rest ≠ []) {high low : Nat} (h : surrogates c.toNat = (high, low))
    : readUnicodeEscape ('u' :: (Hexadecimal.digits 4 high
        ++ '\\' :: 'u' :: (Hexadecimal.digits 4 low ++ rest))) = .ok (c, rest) := by
  obtain ⟨hhigh, hlow, hhighlt, hlowlt, hcode⟩ := surrogates_spec hc h
  have hdrop : (Hexadecimal.digits 4 low ++ rest).drop 4 = rest :=
    List.drop_left' (Hexadecimal.length_digits 4 low)
  have hempty : rest.isEmpty = false := by
    simpa using hrest
  unfold readUnicodeEscape
  rw [readUnit_digits hhighlt (by simp)]
  simp only [bind, Except.bind, hhigh, hdrop, hempty, Bool.not_false, Bool.and_self, if_true,
    readUnit_digits hlowlt hrest, hlow, hcode, Char.ofNat_toNat]

theorem readChars_backslash {start rest rest' : List Char} {fuel : Nat} {c : Char}
    (h : readEscape start ('\\' :: rest) rest = .ok (c, rest'))
    : readChars start (fuel + 1) ('\\' :: rest)
        =
      (do
        let (others, rest) ← readChars start fuel rest'
        .ok (c :: others, rest)) := by
  simp only [readChars, h]
  rfl

theorem readChars_unicode {start rest rest' : List Char} {fuel : Nat} {c : Char}
    (h : readUnicodeEscape ('u' :: rest) = .ok (c, rest'))
    : readChars start (fuel + 1) ('\\' :: 'u' :: rest)
        =
      (do
        let (others, rest) ← readChars start fuel rest'
        .ok (c :: others, rest)) := by
  apply readChars_backslash
  exact h

theorem readChars_plain {start rest : List Char} {fuel : Nat} {c : Char} (hquote : c ≠ '"')
    (hbackslash : c ≠ '\\') (hc : ¬ c.toNat < 0x20)
    : readChars start (fuel + 1) (c :: rest)
        =
      (do
        let (others, rest) ← readChars start fuel rest
        .ok (c :: others, rest)) := by
  rw [readChars, if_neg hc]
  . exact hquote
  . exact hbackslash

/--
A step of reading a string takes all of what one character is written as.
-/
theorem readChars_escape {start rest : List Char} {fuel : Nat} (c : Char) (hrest : rest ≠ [])
    : readChars start (fuel + 1) (escape c ++ rest)
        =
      (do
        let (others, rest) ← readChars start fuel rest
        .ok (c :: others, rest)) := by
  unfold escape
  split
  . next h =>
    rcases h with rfl | rfl
    . exact readChars_backslash rfl
    . exact readChars_backslash rfl
  split
  . next h =>
    subst h
    exact readChars_backslash rfl
  split
  . next h =>
    subst h
    exact readChars_backslash rfl
  split
  . next h =>
    subst h
    exact readChars_backslash rfl
  split
  . next h =>
    subst h
    exact readChars_backslash rfl
  split
  . next h =>
    subst h
    exact readChars_backslash rfl
  split
  -- From here on no sign of its own stands for the character.
  . next hmarks _ _ _ _ _ h =>
    rw [not_or] at hmarks
    exact readChars_plain hmarks.1 hmarks.2 (by omega)
  split
  . next h => exact readChars_unicode (readUnicodeEscape_unit h hrest)
  . next h =>
    simp only [escapedUnit, List.cons_append, List.append_assoc]
    exact readChars_unicode (readUnicodeEscape_pair h hrest rfl)

/--
A string that was written is read again after its opening quotation mark.
-/
theorem readChars_quoted {start rest : List Char} {fuel : Nat} {cs : List Char}
    (hfuel : cs.length < fuel)
    : readChars start fuel (cs.flatMap escape ++ '"' :: rest) = .ok (cs, rest) := by
  induction cs generalizing fuel with
  | nil =>
    cases fuel with
    | zero => contradiction
    | succ fuel => rfl
  | cons c cs ih =>
    cases fuel with
    | zero => contradiction
    | succ fuel =>
      rw [List.flatMap_cons, List.append_assoc, readChars_escape c (by simp)]
      rw [ih (by simpa using hfuel)]
      rfl

theorem length_le_length_flatMap_escape (cs : List Char) : cs.length ≤ (cs.flatMap escape).length := by
  induction cs with
  | nil => simp
  | cons c cs ih =>
    have hc : 0 < (escape c).length := by
      unfold escape
      repeat' split
      all_goals simp [escapedUnit]
    rw [List.flatMap_cons, List.length_append, List.length_cons]
    omega

end Json

end ApiElements
