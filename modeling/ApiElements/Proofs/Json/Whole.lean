import ApiElements.Proofs.Json.Written

/-!
This module contains what reading a JSON text can give: a value that is nested no deeper than was
allowed and whose whole numbers are short, so that it can be written again unless it has fractions.
-/

namespace ApiElements

/--
A value of a JSON text without binary64 numbers at any depth.
-/
inductive Value.Whole : Value → Prop where
  | null : Whole .null
  | bool (b : Bool) : Whole (.bool b)
  | int (n : Int) : Whole (.int n)
  | text (s : String) : Whole (.text s)
  | list {items : List Value} (items_whole : ∀ v ∈ items, Whole v) : Whole (.list items)
  | object {entries : List (Value × Value)} (values_whole : ∀ entry ∈ entries, Whole entry.2)
    : Whole (.object entries)

namespace Json

variable {n : Nat} {v : Value} {cs rest : List Char}

theorem Fits.whole (h : Fits n v) : v.Whole := by
  induction h with
  | null => exact .null
  | bool b => exact .bool b
  | int _ => exact .int _
  | text s => exact .text s
  | list _ ih => exact .list ih
  | object _ _ ih =>
    apply Value.Whole.object
    intro entry hmem
    obtain ⟨field, hfield, rfl⟩ := List.mem_map.1 hmem
    exact ih field hfield

theorem mem_readItems {item : Reader Value} {fuel : Nat} {vs : List Value}
    (h : readItems item fuel cs = .ok (vs, rest))
    : ∀ v ∈ vs, ∃ cs rest, item cs = .ok (v, rest) := by
  induction fuel generalizing cs vs rest with
  | zero => contradiction
  | succ fuel ih =>
    rw [readItems, Outcome.bind_eq_ok] at h
    obtain ⟨⟨v, rest'⟩, hv, h⟩ := h
    dsimp only at h
    split at h
    . injection h with h
      injection h with h _
      subst h
      intro w hw
      rw [List.mem_singleton] at hw
      subst hw
      exact ⟨cs, rest', hv⟩
    . rw [Outcome.bind_eq_ok] at h
      obtain ⟨⟨others, rest''⟩, hothers, h⟩ := h
      injection h with h
      injection h with h _
      subst h
      intro w hw
      rcases List.mem_cons.1 hw with rfl | hw
      . exact ⟨cs, rest', hv⟩
      . exact ih hothers w hw
    . contradiction

theorem mem_readEntries {name : Reader (List Char)} {item : Reader Value} {fuel : Nat}
    {entries : Table Value} (h : readEntries name item fuel cs = .ok (entries, rest))
    : ∃ fields, entries = Table.ofFields fields
        ∧ ∀ field ∈ fields, ∃ cs rest, item cs = .ok (field.2, rest) := by
  induction fuel generalizing cs entries rest with
  | zero => contradiction
  | succ fuel ih =>
    unfold readEntries at h
    split at h
    . rw [Outcome.bind_eq_ok] at h
      obtain ⟨⟨key, rest'⟩, -, h⟩ := h
      dsimp only at h
      split at h
      . next after _ =>
        rw [Outcome.bind_eq_ok] at h
        obtain ⟨⟨v, rest''⟩, hv, h⟩ := h
        dsimp only at h
        split at h
        . injection h with h
          injection h with h _
          refine ⟨[(String.ofList key, v)], h.symm, ?_⟩
          intro field hfield
          rw [List.mem_singleton] at hfield
          subst hfield
          exact ⟨_, _, hv⟩
        . rw [Outcome.bind_eq_ok] at h
          obtain ⟨⟨others, rest'''⟩, hothers, h⟩ := h
          injection h with h
          injection h with h _
          obtain ⟨fields, rfl, hfields⟩ := ih hothers
          refine ⟨(String.ofList key, v) :: fields, h.symm, ?_⟩
          intro field hfield
          rcases List.mem_cons.1 hfield with rfl | hfield
          . exact ⟨_, _, hv⟩
          . exact hfields field hfield
        . contradiction
      . contradiction
    . contradiction

theorem fits_of_readScalar (h : readScalar cs = .ok (v, rest)) (hv : v.Whole) : Fits n v := by
  unfold readScalar at h
  split at h
  . next name w hfind =>
    injection h with h
    injection h with h _
    subst h
    have hmem := List.mem_of_find?_eq_some hfind
    simp only [names, List.mem_cons, Prod.mk.injEq, List.not_mem_nil, or_false] at hmem
    rcases hmem with ⟨-, rfl⟩ | ⟨-, rfl⟩ | ⟨-, rfl⟩ | ⟨-, rfl⟩ | ⟨-, rfl⟩ | ⟨-, rfl⟩
    . exact .null
    . exact .bool true
    . exact .bool false
    all_goals cases hv
  . rcases isShort_of_readNumber h with ⟨d, rfl⟩ | ⟨i, rfl, hshort⟩
    . cases hv
    . exact .int hshort

theorem fits_ofList {fields : List (String × Value)}
    (h : ∀ field ∈ fields, field.2.Whole → Fits n field.2)
    (hv : (Value.object (Table.ofList (Table.ofFields fields))).Whole)
    : Fits (n + 1) (.object (Table.ofList (Table.ofFields fields))) := by
  obtain ⟨fields', heq, hnodup, hmem⟩ := Table.exists_ofList_ofFields fields
  rw [heq] at hv ⊢
  cases hv with
  | object hvalues =>
    apply Fits.object hnodup
    intro field hfield
    apply h field (hmem field hfield)
    exact hvalues _ (List.mem_map_of_mem hfield)

theorem fits_of_readString {fuel : Nat}
    (h : (do
      let (s, rest) ← readString fuel cs
      .ok (.text (String.ofList s), rest)) = (.ok (v, rest) : Except Stop (Value × List Char)))
    : Fits n v := by
  rw [Outcome.bind_eq_ok] at h
  obtain ⟨_, -, h⟩ := h
  injection h with h
  injection h with h _
  subst h
  exact .text _

theorem fits_of_readValue {fuel : Nat} (h : readValue fuel n cs = .ok (v, rest)) (hv : v.Whole)
    : Fits n v := by
  induction n generalizing cs v rest with
  | zero =>
    unfold readValue at h
    split at h
    . exact fits_of_readString h
    . contradiction
    . contradiction
    . exact fits_of_readScalar h hv
  | succ n ih =>
    unfold readValue at h
    split at h
    . exact fits_of_readString h
    . dsimp only at h
      split at h
      . injection h with h
        injection h with h _
        subst h
        exact .list (by simp)
      . rw [Outcome.bind_eq_ok] at h
        obtain ⟨⟨items, rest'⟩, hitems, h⟩ := h
        injection h with h
        injection h with h _
        subst h
        cases hv with
        | list hwhole =>
          apply Fits.list
          intro w hmem
          obtain ⟨cs', rest'', hread⟩ := mem_readItems hitems w hmem
          exact ih hread (hwhole w hmem)
    . dsimp only at h
      split at h
      . injection h with h
        injection h with h _
        subst h
        exact @Fits.object n [] (by simp) (by simp)
      . rw [Outcome.bind_eq_ok] at h
        obtain ⟨⟨entries, rest'⟩, hentries, h⟩ := h
        injection h with h
        injection h with h _
        subst h
        obtain ⟨fields, rfl, hfields⟩ := mem_readEntries hentries
        -- Only those that stay are whole, as entries of an object that is.
        apply fits_ofList _ hv
        intro field hmem hwhole
        obtain ⟨cs', rest'', hread⟩ := hfields field hmem
        exact ih hread hwhole
    . exact fits_of_readScalar h hv

theorem fits_of_parse {text : String} (h : parse text = .ok v) (hv : v.Whole)
    : Fits depthLimit v := by
  unfold parse at h
  dsimp only at h
  split at h
  . contradiction
  . split at h
    . next w hread =>
      injection h with h
      subst h
      rw [readText, Outcome.bind_eq_ok] at hread
      obtain ⟨⟨w, rest⟩, hw, hread⟩ := hread
      dsimp only at hread
      split at hread
      . injection hread with hread
        subst hread
        exact fits_of_readValue hw hv
      . contradiction
    . contradiction
    . contradiction
    . contradiction

end Json

end ApiElements
