import ApiElements.Proofs.Json.Numeral
import ApiElements.Proofs.Json.Quoted
import ApiElements.Proofs.Outcome
import ApiElements.Proofs.Table

/-!
This module contains the reading of JSON texts that were written: under every layout that separates
by blanks only, a value that has a JSON form is read from its text.
-/

namespace ApiElements

namespace Json

/--
The values with a JSON form without fractions that are nested at most so many levels deep: whole
numbers are short enough to be written, and the keys of an object are different texts.
-/
inductive Fits : Nat → Value → Prop where
  | null {n : Nat} : Fits n .null
  | bool {n : Nat} (b : Bool) : Fits n (.bool b)
  | int {n : Nat} {i : Int} (short : isShort i) : Fits n (.int i)
  | text {n : Nat} (s : String) : Fits n (.text s)
  | list {n : Nat} {items : List Value} (items_fit : ∀ v ∈ items, Fits n v)
    : Fits (n + 1) (.list items)
  | object {n : Nat} {fields : List (String × Value)} (nodup : (fields.map (·.1)).Nodup)
    (fields_fit : ∀ field ∈ fields, Fits n field.2)
    : Fits (n + 1) (.object (Table.ofFields fields))

theorem Fits.mono {n m : Nat} {v : Value} (h : Fits n v) (hle : n ≤ m) : Fits m v := by
  induction h generalizing m with
  | null => exact .null
  | bool b => exact .bool b
  | int short => exact .int short
  | text s => exact .text s
  | list _ ih =>
    cases m with
    | zero => omega
    | succ m => exact .list fun v hmem => ih v hmem (by omega)
  | object nodup _ ih =>
    cases m with
    | zero => omega
    | succ m => exact .object nodup fun field hmem => ih field hmem (by omega)

section Blanks

theorem skipBlank_append {bs cs : List Char} (h : ∀ c ∈ bs, isBlank c)
    : skipBlank (bs ++ cs) = skipBlank cs := by
  exact List.dropWhile_append_of_pos h

theorem skipBlank_cons {c : Char} {cs : List Char} (h : ¬ isBlank c)
    : skipBlank (c :: cs) = c :: cs := by
  simp [skipBlank, h]

def Layout.Blank (layout : Layout) : Prop :=
  ∀ level, ∀ c ∈ layout.lineBreak level, isBlank c

theorem Layout.blank_of_ofWidth {n : Int} {layout : Layout} (h : Layout.ofWidth n = .ok layout)
    : layout.Blank := by
  unfold Layout.ofWidth at h
  split at h
  . contradiction
  . split at h
    . contradiction
    . injection h with h
      subst h
      intro level c hc
      rcases List.mem_cons.1 hc with rfl | hc
      . rfl
      . rw [List.eq_of_mem_replicate hc]
        rfl

theorem Layout.blank_lines {unit : List Char} (h : ∀ c ∈ unit, isBlank c)
    : (Layout.lines unit).Blank := by
  intro level c hc
  rcases List.mem_cons.1 hc with rfl | hc
  . rfl
  . obtain ⟨u, hu, hc⟩ := List.mem_flatten.1 hc
    rw [List.eq_of_mem_replicate hu] at hc
    exact h c hc

theorem Layout.blank_oneLine : Layout.oneLine.Blank := by
  intro level c hc
  contradiction

/--
The indentations by blanks only: none, a truth value, a width that can be held, or blanks.
-/
inductive Layout.Indents : Value → Prop where
  | null : Indents .null
  | bool (b : Bool) : Indents (.bool b)
  | width {n : Int} (least : -widthLimit ≤ n) (greatest : n < memoryLimit) : Indents (.int n)
  | unit {s : String} (blank : ∀ c ∈ s.toList, isBlank c) : Indents (.text s)

theorem Layout.Indents.exists_layout {indent : Value} (h : Indents indent)
    : ∃ layout, Layout.ofIndent indent = .ok layout ∧ layout.Blank := by
  cases h with
  | null => exact ⟨_, rfl, blank_oneLine⟩
  | bool b =>
    cases b with
    | false => exact ⟨_, rfl, blank_of_ofWidth (n := 0) rfl⟩
    | true => exact ⟨_, rfl, blank_of_ofWidth (n := 1) rfl⟩
  | @width n least greatest =>
    have hlimits : memoryLimit ≤ widthLimit := by decide
    have hwidth : Layout.ofWidth n = .ok (.spaces n.toNat) := by
      unfold Layout.ofWidth
      rw [if_neg (by omega), if_neg (by omega)]
    exact ⟨_, hwidth, blank_of_ofWidth hwidth⟩
  | unit blank => exact ⟨_, rfl, blank_lines blank⟩

theorem blank_space : ∀ c ∈ [' '], isBlank c := by
  intro c hc
  rw [List.mem_singleton] at hc
  rw [hc]
  rfl

theorem Layout.Blank.separator {layout : Layout} (h : layout.Blank) (level : Nat)
    : ∃ gap, layout.separator level = ',' :: gap ∧ ∀ c ∈ gap, isBlank c := by
  cases layout with
  | oneLine => exact ⟨[' '], rfl, blank_space⟩
  | spaces width => exact ⟨_, rfl, h level⟩
  | lines unit => exact ⟨_, rfl, h level⟩

end Blanks

theorem ends_cons {c : Char} {cs : List Char} (h : ¬ c.isDigit ∧ c ≠ '.' ∧ c ≠ 'e' ∧ c ≠ 'E')
    : Ends (c :: cs) := by
  intro d hd
  rw [List.head?_cons, Option.mem_some_iff] at hd
  subst hd
  exact h

theorem ends_of_isBlank {c : Char} {cs : List Char} (h : isBlank c) : Ends (c :: cs) := by
  apply ends_cons
  simp only [isBlank, Bool.or_eq_true, decide_eq_true_eq] at h
  rcases h with ((rfl | rfl) | rfl) | rfl
  all_goals decide

theorem Ends.append_blank {bs cs : List Char} (h : ∀ c ∈ bs, isBlank c) (hcs : Ends cs)
    : Ends (bs ++ cs) := by
  cases bs with
  | nil => exact hcs
  | cons b bs => exact ends_of_isBlank (h b (by simp))

/--
A text that begins like a value: with neither a blank nor a closing bracket nor a byte order mark.
-/
def Opens (cs : List Char) : Prop :=
  ∃ c tail, cs = c :: tail ∧ ¬ isBlank c ∧ c ≠ ']' ∧ c ≠ '\x7d' ∧ c ≠ '\uFEFF'

/--
A text is read as a value that is nested at most so many levels deep, whatever follows it.
-/
structure Written (n : Nat) (v : Value) (cs : List Char) : Prop where
  opens : Opens cs
  reads : ∀ (fuel : Nat) (rest : List Char), Ends rest → (cs ++ rest).length < fuel →
    readValue fuel n (cs ++ rest) = .ok (v, rest)

theorem Opens.skipBlank {bs cs : List Char} (h : Opens cs) (hbs : ∀ c ∈ bs, isBlank c)
    (rest : List Char) : skipBlank (bs ++ (cs ++ rest)) = cs ++ rest := by
  obtain ⟨c, tail, rfl, hc, -⟩ := h
  rw [skipBlank_append hbs, List.cons_append, skipBlank_cons hc]

section Scalars

variable {n fuel : Nat}

theorem readValue_of_scalar {c : Char} {cs : List Char}
    (h : c ≠ '"' ∧ c ≠ '[' ∧ c ≠ '\x7b') : readValue fuel n (c :: cs) = readScalar (c :: cs) := by
  cases n with
  | zero =>
    unfold readValue
    split
    all_goals simp_all
  | succ n =>
    unfold readValue
    split
    all_goals simp_all

theorem written_null : Written n .null "null".toList where
  opens := ⟨'n', ['u', 'l', 'l'], rfl, by decide⟩
  reads := by
    intro fuel rest _ _
    exact readValue_of_scalar (by decide)

theorem written_bool (b : Bool) : Written n (.bool b) (boolChars b) := by
  cases b with
  | false =>
    refine ⟨⟨'f', ['a', 'l', 's', 'e'], rfl, by decide⟩, ?_⟩
    intro fuel rest _ _
    exact readValue_of_scalar (by decide)
  | true =>
    refine ⟨⟨'t', ['r', 'u', 'e'], rfl, by decide⟩, ?_⟩
    intro fuel rest _ _
    exact readValue_of_scalar (by decide)

theorem wholeText_opens (i : Int)
    : ∃ c tail, wholeText i = c :: tail ∧ (c = '-' ∨ c.isDigit = true) := by
  obtain ⟨c, cs, hdigits, hc⟩ := isDigit_head_toDigits i.natAbs
  unfold wholeText
  rw [hdigits]
  split
  . exact ⟨'-', _, rfl, .inl rfl⟩
  . exact ⟨c, cs, rfl, .inr hc⟩

theorem written_int {i : Int} (h : isShort i) : Written n (.int i) (wholeText i) := by
  obtain ⟨c, tail, htext, hc⟩ := wholeText_opens i
  have hne : ∀ d, ¬ d.isDigit → d ≠ '-' → c ≠ d := by
    rintro d hdigit hminus rfl
    rcases hc with rfl | hc
    . exact hminus rfl
    . exact hdigit hc
  constructor
  . refine ⟨c, tail, htext, ?_, hne _ (by decide) (by decide), hne _ (by decide) (by decide),
      hne _ (by decide) (by decide)⟩
    simp [isBlank, hne]
  . intro fuel rest hrest _
    have hread : readValue fuel n (wholeText i ++ rest) = readScalar (wholeText i ++ rest) := by
      rw [htext, List.cons_append]
      apply readValue_of_scalar
      simp [hne]
    rw [hread, readScalar, find?_names_wholeText, readNumber_wholeText h hrest]

theorem quotedChars_append (cs rest : List Char)
    : quotedChars cs ++ rest = '"' :: (cs.flatMap escape ++ '"' :: rest) := by
  simp [quotedChars]

theorem readString_quoted {cs rest : List Char} (hfuel : (quotedChars cs ++ rest).length < fuel)
    : readString fuel (cs.flatMap escape ++ '"' :: rest) = .ok (cs, rest) := by
  have := length_le_length_flatMap_escape cs
  rw [quotedChars_append, List.length_cons, List.length_append] at hfuel
  apply readChars_quoted
  omega

theorem written_text (s : String) : Written n (.text s) (quotedChars s.toList) where
  opens := ⟨'"', _, rfl, by decide⟩
  reads := by
    intro fuel rest _ hfuel
    have hstring := readString_quoted hfuel
    rw [quotedChars_append]
    cases n with
    | zero => simp [readValue, hstring]
    | succ n => simp [readValue, hstring]

end Scalars

section Items

variable {n level : Nat} {layout : Layout}

theorem exists_printItems {xs : List Value} (hlayout : layout.Blank)
    (h : ∀ x ∈ xs, ∃ cs, print layout level x = .ok cs ∧ Written n x cs)
    : ∃ others, printItems layout level xs = .ok others
        ∧ ∀ {v : Value} {first bs : List Char} (fuel k : Nat) (rest : List Char), Written n v first →
            (∀ c ∈ bs, isBlank c) → (first ++ (others ++ (bs ++ ']' :: rest))).length < fuel →
            (first ++ (others ++ (bs ++ ']' :: rest))).length < k →
            readItems (readValue fuel n) k (first ++ (others ++ (bs ++ ']' :: rest)))
              = .ok (v :: xs, rest) := by
  induction xs with
  | nil =>
    refine ⟨[], rfl, ?_⟩
    intro v first bs fuel k rest hfirst hbs hfuel hk
    cases k with
    | zero => contradiction
    | succ k =>
      have hends : Ends (bs ++ ']' :: rest) := .append_blank hbs (ends_cons (by decide))
      rw [List.nil_append] at hfuel ⊢
      rw [readItems, hfirst.reads fuel _ hends hfuel, Outcome.ok_bind]
      simp only [skipBlank_append hbs, skipBlank_cons (c := ']') (by decide)]
  | cons x xs ih =>
    obtain ⟨cs, hprint, hwritten⟩ := h x (by simp)
    obtain ⟨others, hothers, hread⟩ := ih fun x hmem => h x (List.mem_cons_of_mem _ hmem)
    obtain ⟨gap, hgap, hblank⟩ := hlayout.separator level
    refine ⟨layout.separator level ++ cs ++ others, by simp [printItems, hprint, hothers], ?_⟩
    intro v first bs fuel k rest hfirst hbs hfuel hk
    cases k with
    | zero => contradiction
    | succ k =>
      simp only [hgap, List.cons_append, List.append_assoc] at hfuel hk ⊢
      rw [readItems, hfirst.reads fuel _ (ends_cons (by decide)) hfuel, Outcome.ok_bind]
      simp only [skipBlank_cons (c := ',') (by decide), hwritten.opens.skipBlank hblank]
      simp only [List.length_append, List.length_cons] at hfuel hk
      rw [hread fuel k rest hwritten hbs, Outcome.ok_bind]
      . simp only [List.length_append, List.length_cons]
        omega
      . simp only [List.length_append, List.length_cons]
        omega

theorem quotedChars_opens (cs rest : List Char) : Opens (quotedChars cs ++ rest) := by
  rw [quotedChars_append]
  exact ⟨'"', _, rfl, by decide⟩

section Field

variable {fuel k : Nat} {key : String} {v : Value} {value after rest : List Char}

theorem Written.readValue_after {cs : List Char} (hvalue : Written n v value) (hafter : Ends after)
    (hfuel : (cs ++ ':' :: ' ' :: (value ++ after)).length < fuel)
    : readValue fuel n (skipBlank (' ' :: (value ++ after))) = .ok (v, after) := by
  have hskip := hvalue.opens.skipBlank blank_space after
  rw [List.cons_append, List.nil_append] at hskip
  rw [hskip]
  apply hvalue.reads fuel after hafter
  simp only [List.length_append, List.length_cons] at hfuel ⊢
  omega

theorem readEntries_last (hvalue : Written n v value) (hafter : Ends after)
    (hfuel : (quotedChars key.toList ++ ':' :: ' ' :: (value ++ after)).length < fuel)
    (hclosed : skipBlank after = '\x7d' :: rest)
    : readEntries (readString fuel) (readValue fuel n) (k + 1)
        (quotedChars key.toList ++ ':' :: ' ' :: (value ++ after))
        =
      .ok ([(.text key, v)], rest) := by
  have hkey := readString_quoted hfuel
  have hread := hvalue.readValue_after hafter hfuel
  rw [quotedChars_append, readEntries]
  simp only [hkey, Outcome.ok_bind, skipBlank_cons (c := ':') (by decide)]
  simp only [hread, hclosed, Outcome.ok_bind, String.ofList_toList]

theorem readEntries_next (hvalue : Written n v value) (hafter : Ends after)
    (hfuel : (quotedChars key.toList ++ ':' :: ' ' :: (value ++ after)).length < fuel)
    (hopen : skipBlank after = ',' :: rest)
    : readEntries (readString fuel) (readValue fuel n) (k + 1)
        (quotedChars key.toList ++ ':' :: ' ' :: (value ++ after))
        =
      (do
        let (others, rest) ← readEntries (readString fuel) (readValue fuel n) k (skipBlank rest)
        .ok ((.text key, v) :: others, rest)) := by
  have hkey := readString_quoted hfuel
  have hread := hvalue.readValue_after hafter hfuel
  rw [quotedChars_append, readEntries]
  simp only [hkey, Outcome.ok_bind, skipBlank_cons (c := ':') (by decide)]
  simp only [hread, hopen, Outcome.ok_bind, String.ofList_toList]

end Field

theorem exists_printEntries {fields : List (String × Value)} (hne : fields ≠ [])
    (hlayout : layout.Blank)
    (h : ∀ field ∈ fields, ∃ cs, print layout level field.2 = .ok cs ∧ Written n field.2 cs)
    : ∃ content, printEntries layout level (Table.ofFields fields) = .ok content ∧ Opens content
        ∧ ∀ {bs : List Char} (fuel k : Nat) (rest : List Char), (∀ c ∈ bs, isBlank c) →
            (content ++ (bs ++ '\x7d' :: rest)).length < fuel →
            (content ++ (bs ++ '\x7d' :: rest)).length < k →
            readEntries (readString fuel) (readValue fuel n) k (content ++ (bs ++ '\x7d' :: rest))
              = .ok (Table.ofFields fields, rest) := by
  induction fields with
  | nil => contradiction
  | cons field others ih =>
    obtain ⟨value, hprint, hwritten⟩ := h field (by simp)
    cases others with
    | nil =>
      refine ⟨quotedChars field.1.toList ++ [':', ' '] ++ value, ?_, ?_, ?_⟩
      . simp [Table.ofFields, printEntries, keyChars, hprint]
      . rw [List.append_assoc]
        exact quotedChars_opens _ _
      . intro bs fuel k rest hbs hfuel hk
        cases k with
        | zero => contradiction
        | succ k =>
          -- The blanks before the closing brace end the last value, be it a numeral.
          have hends : Ends (bs ++ '\x7d' :: rest) := .append_blank hbs (ends_cons (by decide))
          simp only [List.append_assoc, List.cons_append, List.nil_append] at hfuel ⊢
          have hclosed : skipBlank (bs ++ '\x7d' :: rest) = '\x7d' :: rest := by
            rw [skipBlank_append hbs, skipBlank_cons (by decide)]
          exact readEntries_last hwritten hends hfuel hclosed
    | cons next others =>
      obtain ⟨content, hcontent, hopens, hread⟩ := ih (by simp) fun field hmem =>
        h field (List.mem_cons_of_mem _ hmem)
      obtain ⟨gap, hgap, hblank⟩ := hlayout.separator level
      refine ⟨quotedChars field.1.toList ++ [':', ' '] ++ value ++ layout.separator level ++ content,
        ?_, ?_, ?_⟩
      . unfold Table.ofFields at hcontent ⊢
        rw [List.map_cons] at hcontent
        rw [List.map_cons, List.map_cons, printEntries]
        simp [keyChars, hprint, hcontent]
      . rw [List.append_assoc, List.append_assoc, List.append_assoc]
        exact quotedChars_opens _ _
      . intro bs fuel k rest hbs hfuel hk
        cases k with
        | zero => contradiction
        | succ k =>
          simp only [List.append_assoc, List.cons_append, List.nil_append, hgap] at hfuel hk ⊢
          rw [readEntries_next hwritten (ends_cons (by decide)) hfuel (skipBlank_cons (by decide))]
          simp only [hopens.skipBlank hblank]
          simp only [List.length_append, List.length_cons] at hfuel hk
          rw [hread fuel k rest hbs, Outcome.ok_bind]
          . rfl
          . simp only [List.length_append, List.length_cons]
            omega
          . simp only [List.length_append, List.length_cons]
            omega

end Items

section Values

variable {n : Nat} {layout : Layout}

theorem Opens.append_ne {cs rest tail : List Char} (h : Opens cs)
    : cs ++ rest ≠ ']' :: tail ∧ cs ++ rest ≠ '\x7d' :: tail := by
  obtain ⟨c, _, rfl, -, hbracket, hbrace, -⟩ := h
  constructor
  . intro heq
    injection heq with heq _
    exact hbracket heq
  . intro heq
    injection heq with heq _
    exact hbrace heq

theorem readValue_list {fuel : Nat} {cs : List Char} (h : ∀ tail, skipBlank cs ≠ ']' :: tail)
    : readValue fuel (n + 1) ('[' :: cs)
        =
      (do
        let (items, rest) ← readItems (readValue fuel n) fuel (skipBlank cs)
        .ok (.list items, rest)) := by
  rw [readValue]
  split
  . next heq => exact absurd heq (h _)
  . rfl

theorem readValue_object {fuel : Nat} {cs : List Char} (h : ∀ tail, skipBlank cs ≠ '\x7d' :: tail)
    : readValue fuel (n + 1) ('\x7b' :: cs)
        =
      (do
        let (entries, rest) ← readEntries (readString fuel) (readValue fuel n) fuel (skipBlank cs)
        .ok (.object (Table.ofList entries), rest)) := by
  rw [readValue]
  split
  . next heq => exact absurd heq (h _)
  . rfl

theorem exists_print_list {level : Nat} {items : List Value} (hlayout : layout.Blank)
    (h : ∀ v ∈ items, ∃ cs, print layout (level + 1) v = .ok cs ∧ Written n v cs)
    : ∃ cs, print layout level (.list items) = .ok cs ∧ Written (n + 1) (.list items) cs := by
  cases items with
  | nil =>
    refine ⟨['[', ']'], rfl, ⟨'[', _, rfl, by decide⟩, ?_⟩
    intro fuel rest _ _
    simp [readValue, skipBlank_cons (c := ']') (by decide)]
  | cons x xs =>
    obtain ⟨first, hprint, hfirst⟩ := h x (by simp)
    obtain ⟨others, hothers, hread⟩ := exists_printItems hlayout fun x hmem =>
      h x (List.mem_cons_of_mem _ hmem)
    refine ⟨layout.enclose level '[' ']' (first ++ others), ?_, ⟨'[', _, rfl, by decide⟩, ?_⟩
    . simp [print, printArray, hprint, hothers]
    . intro fuel rest _ hfuel
      simp only [Layout.enclose, List.append_assoc, List.cons_append, List.nil_append] at hfuel ⊢
      have hskip := hfirst.opens.skipBlank (hlayout (level + 1))
        (others ++ (layout.lineBreak level ++ ']' :: rest))
      have hshorter : (first ++ (others ++ (layout.lineBreak level ++ ']' :: rest))).length < fuel := by
        simp only [List.length_append, List.length_cons] at hfuel ⊢
        omega
      rw [readValue_list, hskip, hread fuel fuel rest hfirst (hlayout level) hshorter hshorter]
      . rfl
      . intro tail
        rw [hskip]
        exact hfirst.opens.append_ne.1

theorem exists_print_object {level : Nat} {fields : List (String × Value)} (hlayout : layout.Blank)
    (hnodup : (fields.map (·.1)).Nodup)
    (h : ∀ field ∈ fields,
      ∃ cs, print layout (level + 1) field.2 = .ok cs ∧ Written n field.2 cs)
    : ∃ cs, print layout level (.object (Table.ofFields fields)) = .ok cs
        ∧ Written (n + 1) (.object (Table.ofFields fields)) cs := by
  cases fields with
  | nil =>
    refine ⟨['\x7b', '\x7d'], rfl, ⟨'\x7b', _, rfl, by decide⟩, ?_⟩
    intro fuel rest _ _
    simp [readValue, skipBlank_cons (c := '\x7d') (by decide), Table.ofFields]
  | cons field others =>
    obtain ⟨content, hcontent, hopens, hread⟩ := exists_printEntries (by simp) hlayout h
    refine ⟨layout.enclose level '\x7b' '\x7d' content, ?_, ⟨'\x7b', _, rfl, by decide⟩, ?_⟩
    . unfold Table.ofFields at hcontent ⊢
      rw [List.map_cons] at hcontent ⊢
      rw [print, hcontent, Outcome.ok_bind]
    . intro fuel rest _ hfuel
      simp only [Layout.enclose, List.append_assoc, List.cons_append, List.nil_append] at hfuel ⊢
      have hskip := hopens.skipBlank (hlayout (level + 1)) (layout.lineBreak level ++ '\x7d' :: rest)
      have hshorter : (content ++ (layout.lineBreak level ++ '\x7d' :: rest)).length < fuel := by
        simp only [List.length_append, List.length_cons] at hfuel ⊢
        omega
      rw [readValue_object, hskip, hread fuel fuel rest (hlayout level) hshorter hshorter]
      . rw [Outcome.ok_bind]
        dsimp only
        rw [Table.ofList_ofFields hnodup]
      . intro tail
        rw [hskip]
        exact hopens.append_ne.2

/--
Whatever fits is written, and what is written is read as the same value.
-/
theorem Fits.exists_print {v : Value} (h : Fits n v) (hlayout : layout.Blank) (level : Nat)
    : ∃ cs, print layout level v = .ok cs ∧ Written n v cs := by
  induction h generalizing level with
  | null => exact ⟨_, rfl, written_null⟩
  | bool b => exact ⟨_, rfl, written_bool b⟩
  | int short => exact ⟨_, by rw [print, wholeChars, if_pos short], written_int short⟩
  | text s => exact ⟨_, rfl, written_text s⟩
  | list _ ih => exact exists_print_list hlayout fun v hmem => ih v hmem (level + 1)
  | object nodup _ ih =>
    exact exists_print_object hlayout nodup fun field hmem => ih field hmem (level + 1)

end Values

theorem readText_of_written {n : Nat} {v : Value} {cs : List Char} (h : Written n v cs)
    : readText n cs = .ok v := by
  have hskip := @Opens.skipBlank [] cs h.opens (by simp) []
  have hread := h.reads (cs.length + 1) [] (by simp [Ends]) (by simp)
  simp only [List.nil_append, List.append_nil] at hskip hread
  rw [readText, hskip, hread]
  rfl

theorem parse_of_written {v : Value} {cs : List Char} (h : Written depthLimit v cs)
    : parse (String.ofList cs) = .ok v := by
  have hmark : cs.head? ≠ some '\uFEFF' := by
    obtain ⟨c, tail, rfl, -, -, -, hmark⟩ := h.opens
    simpa using hmark
  unfold parse
  simp only [String.toList_ofList]
  rw [if_neg hmark, readText_of_written h]

/--
A value that fits the parser is read from its own text, under every indentation by blanks.
-/
theorem exists_render {v indent : Value} (hv : Fits depthLimit v) (hindent : Layout.Indents indent)
    : ∃ text, render indent v = .ok text ∧ parse text = .ok v := by
  obtain ⟨layout, hofIndent, hlayout⟩ := hindent.exists_layout
  obtain ⟨cs, hprint, hwritten⟩ := hv.exists_print hlayout 0
  refine ⟨String.ofList cs, ?_, parse_of_written hwritten⟩
  cases hv with
  | text s =>
    injection hprint with hprint
    rw [render, hprint]
  | _ => simp [render, hofIndent, hprint]

end Json

end ApiElements
