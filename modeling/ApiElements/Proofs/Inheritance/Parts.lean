import ApiElements.Element.Merge
import ApiElements.Proofs.Outcome
import ApiElements.Proofs.Value.Keyed

/-!
This module contains what merging does to descriptive data and attributes: the merged element has what
the extending element has, and what the base has otherwise.
-/

namespace ApiElements

theorem Value.field_eq_null_or {t u : Table Value} {name : String} {other : Option Value}
    (h : u.get? (.text name) = (t.get? (.text name)).or other)
    : (Value.object t).field name = .ok .null
        ∨ (Value.object t).field name = (Value.object u).field name := by
  unfold field
  dsimp only
  rw [h]
  cases t.get? (.text name) with
  | none => exact .inl rfl
  | some v => exact .inr rfl

namespace Element

variable {x y base override merged : Element}

structure KeyedParts (e : Element) : Prop where
  info : ∀ t, e.info = .object t → Table.Keyed t
  attributes : ∀ t, e.attributes = .object t → Table.Keyed t

/--
Whatever an element says about itself, its description and its type attributes, another one says too.
-/
structure SaysNoMore (e e' : Element) : Prop where
  description : e.description = .ok .null ∨ e.description = e'.description
  typeAttributes : e.typeAttributes = .ok [] ∨ e.typeAttributes = e'.typeAttributes

theorem extendBy_tables (h : base.extendBy override = .ok merged)
    : (∃ t u, base.info = .object t ∧ override.info = .object u
          ∧ merged.info = .object (Table.union t u))
        ∧ ∃ t u, base.attributes = .object t ∧ override.attributes = .object u
            ∧ merged.attributes = .object (Table.union t u) := by
  have htables : ∀ {v w : Value} {entries : Table Value}, mergeEntries v w = .ok entries →
      ∃ t u, v = .object t ∧ w = .object u ∧ entries = Table.union t u := by
    intro v w entries h
    unfold mergeEntries at h
    split at h
    . next t u =>
      injection h with h
      exact ⟨t, u, rfl, rfl, h.symm⟩
    . contradiction
  unfold extendBy at h
  simp only [Outcome.bind_eq_ok, Except.ok.injEq] at h
  obtain ⟨info, hinfo, attributes, hattributes, content, -, rfl⟩ := h
  obtain ⟨t, u, ht, hu, rfl⟩ := htables hinfo
  obtain ⟨t', u', ht', hu', rfl⟩ := htables hattributes
  exact ⟨⟨t, u, ht, hu, rfl⟩, t', u', ht', hu', rfl⟩

theorem typeAttributes_congr
    (h : x.attributes.field "typeAttributes" = y.attributes.field "typeAttributes")
    : x.typeAttributes = y.typeAttributes := by
  rw [typeAttributes, typeAttributes, h]

section KeyedParts

variable (hbase : base.KeyedParts) (hoverride : override.KeyedParts)
variable (h : base.extendBy override = .ok merged)

include hbase hoverride h

theorem KeyedParts.extendBy : merged.KeyedParts := by
  obtain ⟨⟨t, u, ht, hu, hinfo⟩, t', u', ht', hu', hattributes⟩ := extendBy_tables h
  constructor
  . intro entries hentries
    rw [hinfo, Value.object.injEq] at hentries
    exact hentries ▸ (hbase.info t ht).union (hoverride.info u hu)
  . intro entries hentries
    rw [hattributes, Value.object.injEq] at hentries
    exact hentries ▸ (hbase.attributes t' ht').union (hoverride.attributes u' hu')

theorem KeyedParts.under?_extendBy (name : String)
    : merged.info.under? name = (override.info.under? name).or (base.info.under? name)
        ∧ merged.attributes.under? name
            = (override.attributes.under? name).or (base.attributes.under? name) := by
  obtain ⟨⟨t, u, ht, hu, hinfo⟩, t', u', ht', hu', hattributes⟩ := extendBy_tables h
  have hname : (Value.text name).hashable = true := rfl
  rw [hinfo, ht, hu, hattributes, ht', hu']
  constructor
  . exact Table.get?_union (hbase.info t ht) (hoverride.info u hu) hname
  . exact Table.get?_union (hbase.attributes t' ht') (hoverride.attributes u' hu') hname

theorem KeyedParts.saysNoMore_override : override.SaysNoMore merged := by
  have hentry := hbase.under?_extendBy hoverride h
  obtain ⟨⟨t, u, -, hu, hinfo⟩, t', u', -, hu', hattributes⟩ := extendBy_tables h
  constructor
  . have hdescription := (hentry "description").1
    rw [hinfo, hu] at hdescription
    unfold description
    rw [hinfo, hu]
    exact Value.field_eq_null_or hdescription
  . have hnames := (hentry "typeAttributes").2
    rw [hattributes, hu'] at hnames
    rcases Value.field_eq_null_or hnames with hnull | hsame
    . apply Or.inl
      rw [typeAttributes, hu', hnull]
      rfl
    . apply Or.inr
      apply typeAttributes_congr
      rw [hu', hattributes, hsame]

end KeyedParts

end Element

end ApiElements
