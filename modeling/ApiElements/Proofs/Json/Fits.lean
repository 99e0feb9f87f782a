import ApiElements.Proofs.Codec.RoundTrip
import ApiElements.Proofs.Json.Written

/-!
This module contains how deep the parts of what fits a JSON text are nested: whatever is taken out of
a value on the way to an element fits one level less.
-/

namespace ApiElements

def Table.Fits (n : Nat) (t : Table Value) : Prop :=
  ∃ fields, t = Table.ofFields fields ∧ (fields.map (·.1)).Nodup
    ∧ ∀ field ∈ fields, Json.Fits n field.2

namespace Json

variable {n : Nat} {v : Value}

theorem fits_list {items : List Value}
    : Fits n (.list items) ↔ ∃ m, n = m + 1 ∧ ∀ v ∈ items, Fits m v := by
  constructor
  . intro h
    cases h with
    | list h => exact ⟨_, rfl, h⟩
  . rintro ⟨m, rfl, h⟩
    exact .list h

theorem fits_object {t : Table Value} : Fits n (.object t) ↔ ∃ m, n = m + 1 ∧ t.Fits m := by
  constructor
  . intro h
    cases h with
    | object nodup h => exact ⟨_, rfl, _, rfl, nodup, h⟩
  . rintro ⟨m, rfl, fields, rfl, nodup, h⟩
    exact .object nodup h

theorem fits_int {i : Int} : Fits n (.int i) ↔ isShort i := by
  constructor
  . intro h
    cases h with
    | int short => exact short
  . exact .int

theorem fits_ofFields {fields : List (String × Value)}
    : Fits (n + 1) (.object (Table.ofFields fields))
        ↔ (fields.map (·.1)).Nodup ∧ ∀ field ∈ fields, Fits n field.2 := by
  constructor
  . intro h
    obtain ⟨m, hm, fields', heq, hnodup, hfields⟩ := fits_object.1 h
    obtain rfl := Table.ofFields_injective heq
    obtain rfl : n = m := by omega
    exact ⟨hnodup, hfields⟩
  . exact fun h => .object h.1 h.2

theorem Fits.data (h : Fits n v) : v.Data := by
  induction h with
  | null => exact .null
  | bool b => exact .bool b
  | int _ => exact .int _
  | text s => exact .text s
  | list _ ih => exact .list ih
  | object _ _ ih =>
    rw [Value.data_object]
    intro entry hmem
    obtain ⟨field, hfield, rfl⟩ := List.mem_map.1 hmem
    exact ⟨.text _, ih field hfield⟩

end Json

namespace Table

variable {n : Nat} {t : Table Value}

theorem Fits.of_mem (h : t.Fits n) {entry : Value × Value} (hmem : entry ∈ t)
    : (∃ s : String, entry.1 = .text s) ∧ Json.Fits n entry.2 := by
  obtain ⟨fields, rfl, -, hfields⟩ := h
  obtain ⟨field, hfield, rfl⟩ := List.mem_map.1 hmem
  exact ⟨⟨field.1, rfl⟩, hfields field hfield⟩

theorem Fits.get? (h : t.Fits n) {key v : Value} (hv : t.get? key = some v) : Json.Fits n v := by
  obtain ⟨k, hmem, -⟩ := mem_of_get? hv
  exact (h.of_mem hmem).2

theorem Fits.getD (h : t.Fits n) (key : Value) : Json.Fits n ((t.get? key).getD .null) := by
  cases hv : t.get? key with
  | none => exact .null
  | some v => exact h.get? hv

theorem Fits.put (h : t.Fits n) {s : String} {v : Value} (hv : Json.Fits n v)
    : Fits n (t.put (.text s) v) := by
  obtain ⟨fields, rfl, hnodup, hfields⟩ := h
  obtain ⟨fields', hput, hnodup', hmem⟩ := exists_put_ofFields fields s v hnodup
  refine ⟨fields', hput, hnodup', ?_⟩
  intro field hfield
  rcases hmem field hfield with hfield | rfl
  . exact hfields field hfield
  . exact hv

theorem fits_nil : Fits n [] := by
  exact ⟨[], rfl, by simp, by simp⟩

theorem Fits.part (h : t.Fits n) {v : Value} (hv : v ∈ t.part) : Json.Fits (n + 1) v := by
  unfold Table.part at hv
  split at hv
  . contradiction
  . rw [Option.mem_some_iff] at hv
    subst hv
    exact Json.fits_object.2 ⟨n, rfl, h⟩

theorem fits_ofList {pairs : List (Value × Value)} (htexts : (ofList pairs).TextKeyed)
    (h : ∀ pair ∈ pairs, Json.Fits n pair.2) : Fits n (ofList pairs) := by
  obtain ⟨fields, rfl⟩ := htexts.of_union.2.exists_ofFields
  obtain ⟨fields', heq, hnodup, hmem⟩ := exists_ofList_ofFields fields
  refine ⟨fields', heq, hnodup, ?_⟩
  intro field hfield
  exact h _ (List.mem_map_of_mem (hmem field hfield))

end Table

namespace Json

variable {n : Nat} {v : Value}

theorem Fits.items (h : Fits n v) {xs : List Value} (hxs : v.items = .ok xs)
    : ∀ x ∈ xs, Fits (n - 1) x := by
  cases h with
  | text s =>
    injection hxs with hxs
    subst hxs
    intro x hx
    obtain ⟨c, -, rfl⟩ := List.mem_map.1 hx
    exact .text _
  | list h =>
    injection hxs with hxs
    subst hxs
    exact h
  | object nodup _ =>
    injection hxs with hxs
    subst hxs
    intro x hx
    simp only [Table.keys, Table.ofFields, List.map_map, List.mem_map] at hx
    obtain ⟨field, -, rfl⟩ := hx
    exact .text _
  | _ => simp [Value.items] at hxs

theorem Fits.pair (h : Fits n v) {key thing : Value} (hpair : v.pair = .ok (key, thing))
    : Fits n thing := by
  rw [Value.pair, Outcome.bind_eq_ok] at hpair
  obtain ⟨xs, hxs, hpair⟩ := hpair
  split at hpair
  . split at hpair
    . injection hpair with hpair
      injection hpair with _ hthing
      subst hthing
      exact (h.items hxs _ (by simp)).mono (by omega)
    . contradiction
  . contradiction

theorem Fits.entriesOrNone (h : Fits (n + 1) v) {entries : Table Value}
    (hentries : v.entriesOrNone = .ok entries) (htexts : entries.TextKeyed) : entries.Fits n := by
  unfold Value.entriesOrNone at hentries
  split at hentries
  . split at hentries
    . injection hentries with hentries
      subst hentries
      obtain ⟨m, heq, h⟩ := fits_object.1 h
      injection heq with heq
      exact heq ▸ h
    . simp only [Outcome.bind_eq_ok] at hentries
      obtain ⟨xs, hxs, pairs, hpairs, hentries⟩ := hentries
      injection hentries with hentries
      subst hentries
      apply Table.fits_ofList htexts
      intro pair hmem
      obtain ⟨x, hx, hpair⟩ := Outcome.exists_of_mem_mapM hpairs hmem
      exact (h.items hxs x hx).pair hpair
  . injection hentries with hentries
    subst hentries
    exact Table.fits_nil

theorem Fits.field (h : Fits n v) {name : String} {w : Value} (hw : v.field name = .ok w)
    : Fits (n - 1) w := by
  cases v with
  | object entries =>
    obtain ⟨m, rfl, hentries⟩ := fits_object.1 h
    injection hw with hw
    subst hw
    exact hentries.getD _
  | _ => simp [Value.field] at hw

theorem Fits.names (h : Fits n v) {names : List Value} (hnames : unwrapNames v = .ok (.list names))
    : Fits n (.list names) := by
  unfold unwrapNames at hnames
  split at hnames
  . next entries =>
    obtain ⟨m, rfl, hentries⟩ := fits_object.1 h
    split at hnames
    . simp only [Outcome.bind_eq_ok, Outcome.map_eq_ok] at hnames
      obtain ⟨items, hitems, names', hmapM, heq⟩ := hnames
      injection heq with heq
      subst heq
      apply Fits.list
      intro name hmem
      obtain ⟨item, hitem, hfield⟩ := Outcome.exists_of_mem_mapM hmapM hmem
      unfold Value.itemsOrNone at hitems
      split at hitems
      . exact (((hentries.getD _).items hitems item hitem).field hfield).mono (by omega)
      . injection hitems with hitems
        subst hitems
        exact absurd hitem List.not_mem_nil
    . injection hnames with hnames
      contradiction
  . cases h
  . injection hnames with hnames
    exact hnames ▸ h

/--
Attributes that were read are written no deeper than they were.
-/
theorem Fits.attributes (h : Fits (n + 1) v) {attributes attributes' : Table Value}
    (hread : attributesOf v = .ok attributes) (htexts : attributes.TextKeyed)
    (hwrite : Value.encodeEntries attributes = .ok attributes') : attributes'.Fits n := by
  obtain ⟨entries, hentries, hcases⟩ := Value.attributesOf_eq_ok h.data hread
  have hdata := h.data.entriesOrNone hentries
  rcases hcases with ⟨rfl, -⟩ | ⟨raw, names, hraw, hnames, rfl⟩
  . rw [hdata.encodeEntries] at hwrite
    injection hwrite with hwrite
    exact hwrite ▸ h.entriesOrNone hentries htexts
  . have hfits := h.entriesOrNone hentries htexts.of_put.1
    have hlist := (hfits.get? hraw).names hnames
    have hencode : (Value.tuple names).encode = .ok (.list names) := hlist.data.encode
    rw [Value.encodeEntries_put hdata hencode] at hwrite
    injection hwrite with hwrite
    exact hwrite ▸ hfits.put hlist

end Json

end ApiElements
