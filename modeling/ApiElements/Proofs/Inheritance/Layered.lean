import ApiElements.Proofs.Inheritance.Interchange
import ApiElements.Proofs.Inheritance.Parts

/-!
This module contains what elements come to that extend each other. Merging them is not associative,
as it depends on the order of the merges which repeated members are dropped, but what is left of the
differences cannot be seen in an example, nor in the properties of a schema.
-/

namespace ApiElements

open Registry (Sequential Interchangeable entriesOf)

theorem Value.field_congr {v w x y : Value} {name : String} (h : v.under? name = w.under? name)
    (hv : v.field name = .ok x) (hw : w.field name = .ok y) : v.field name = w.field name := by
  cases v with
  | object t =>
    cases w with
    | object u =>
      rw [under?_object, under?_object] at h
      rw [field, field, h]
    | _ => contradiction
  | _ => contradiction

namespace Element

variable {e e' x y base override merged : Element} {es es' : List Element} {s s' s'' : Schema}

/--
An element that can be one of several layers: its content is a sequence, unless there is none, and
its tables have distinct keys.
-/
structure Layer (e : Element) : Prop where
  info : ∀ t, e.info = .object t → Table.Keyed t
  attributes : ∀ t, e.attributes = .object t → Table.Keyed t
  content : Sequential e.content

theorem Layer.keyedParts (h : e.Layer) : e.KeyedParts where
  info := h.info
  attributes := h.attributes

/--
An element that has been made of some layers by merging them, in whatever order of the merges.
-/
inductive Layered : List Element → Element → Prop where
  | single (e : Element) : Layered [e] e
  | extend {es es' : List Element} {base override merged : Element} (below : Layered es base)
    (above : Layered es' override) (extended : base.extendBy override = .ok merged)
    : Layered (es ++ es') merged

theorem Layer.extendBy (hbase : base.Layer) (hoverride : override.Layer)
    (h : base.extendBy override = .ok merged) : merged.Layer := by
  have hkeyed := hbase.keyedParts.extendBy hoverride.keyedParts h
  refine ⟨hkeyed.info, hkeyed.attributes, ?_⟩
  exact (Registry.interchangeable_mergeContent hbase.content hoverride.content
    (extendBy_eq_ok h).2).1

/--
What layers come to: the entries of their contents one after the other, as far as they are kept, and
under each name what the last layer has that has anything there.
-/
structure Sums (es : List Element) (x : Element) : Prop where
  layer : x.Layer
  entries : Interchangeable (entriesOf x.content) (es.flatMap fun e => entriesOf e.content)
  info : ∀ name, x.info.under? name = es.reverse.findSome? fun e => e.info.under? name
  attributes : ∀ name,
    x.attributes.under? name = es.reverse.findSome? fun e => e.attributes.under? name

theorem Sums.extendBy (hbase : Sums es base) (hoverride : Sums es' override)
    (h : base.extendBy override = .ok merged) : Sums (es ++ es') merged where
  layer := hbase.layer.extendBy hoverride.layer h
  entries := by
    rw [List.flatMap_append]
    exact (Registry.interchangeable_mergeContent hbase.layer.content hoverride.layer.content
      (extendBy_eq_ok h).2).2.trans (hbase.entries.append hoverride.entries)
  info := by
    intro name
    rw [(hbase.layer.keyedParts.under?_extendBy hoverride.layer.keyedParts h name).1, hbase.info,
      hoverride.info, List.reverse_append, List.findSome?_append]
  attributes := by
    intro name
    rw [(hbase.layer.keyedParts.under?_extendBy hoverride.layer.keyedParts h name).2,
      hbase.attributes, hoverride.attributes, List.reverse_append, List.findSome?_append]

theorem Layered.sums (h : Layered es x) (hes : ∀ e ∈ es, e.Layer) : Sums es x := by
  induction h with
  | single e =>
    refine ⟨hes e (by simp), ?_, fun name => ?_, fun name => ?_⟩
    . rw [List.flatMap_singleton]
      exact Registry.interchangeable_self _
    . simp
    . simp
  | extend _ _ extended ih ih' =>
    rw [List.forall_mem_append] at hes
    exact (ih hes.1).extendBy (ih' hes.2) extended

theorem Layered.head? (h : Layered es x) : es.head?.map Element.kind = some x.kind := by
  induction h with
  | single e => rfl
  | extend _ _ extended ih ih' =>
    rw [(extendBy_eq_ok extended).1, ← ih, List.head?_append]
    cases hhead : List.head? _ with
    | none => simp [hhead] at ih
    | some first => rfl

theorem Layered.kind (h : Layered (base :: es) x) : x.kind = base.kind := by
  have hfirst := h.head?
  rw [List.head?_cons, Option.map_some, Option.some.injEq] at hfirst
  exact hfirst.symm

/--
Merging further elements on top one by one puts them over the layers.
-/
theorem Layered.foldlM {others : List Element} (h : Layered es x)
    (hfold : others.foldlM Element.extendBy x = .ok y) : Layered (es ++ others) y := by
  induction others generalizing es x with
  | nil =>
    injection hfold with hfold
    rwa [List.append_nil, ← hfold]
  | cons e rest ih =>
    rw [List.foldlM_cons, Outcome.bind_eq_ok] at hfold
    obtain ⟨merged, hmerged, hrest⟩ := hfold
    have hall := ih (.extend h (.single e) hmerged) hrest
    rwa [List.append_assoc, List.singleton_append] at hall

theorem exists_field_of_typeAttributes {names : List Value} (h : x.typeAttributes = .ok names)
    : ∃ v, x.attributes.field "typeAttributes" = .ok v := by
  unfold typeAttributes at h
  cases hfield : x.attributes.field "typeAttributes" with
  | ok v => exact ⟨v, rfl⟩
  | error fault =>
    rw [hfield] at h
    contradiction

theorem Sums.attribute_congr (hx : Sums es x) (hy : Sums es y) {g g' : Schema.Gathered}
    (h : g.schema.attribute x = .ok s) (h' : g'.schema.attribute y = .ok s')
    : s.type = s'.type ∧ s.nullable = s'.nullable ∧ s.description = s'.description := by
  obtain ⟨d, names, hd, hn, rfl⟩ := Schema.attribute_eq_ok.1 h
  obtain ⟨d', names', hd', hn', rfl⟩ := Schema.attribute_eq_ok.1 h'
  obtain ⟨v, hv⟩ := exists_field_of_typeAttributes hn
  obtain ⟨v', hv'⟩ := exists_field_of_typeAttributes hn'
  have hdescription : x.description = y.description :=
    Value.field_congr ((hx.info _).trans (hy.info _).symm) hd hd'
  have hnames : x.typeAttributes = y.typeAttributes :=
    typeAttributes_congr (Value.field_congr ((hx.attributes _).trans (hy.attributes _).symm) hv hv')
  rw [hdescription, hd', Except.ok.injEq] at hd
  rw [hnames, hn', Except.ok.injEq] at hn
  subst hd hn
  unfold Schema.describe
  split
  . split
    . exact ⟨rfl, rfl, rfl⟩
    . exact ⟨rfl, rfl, rfl⟩
  . split
    . exact ⟨rfl, rfl, rfl⟩
    . exact ⟨rfl, rfl, rfl⟩

end Element

end ApiElements
