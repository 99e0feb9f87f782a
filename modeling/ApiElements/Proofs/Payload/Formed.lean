import ApiElements.Proofs.Codec.RoundTrip
import ApiElements.Proofs.Compile.Confined
import ApiElements.Proofs.Payload.Caught

/-!
This module contains the form that all elements have that are read from plain data, and what it
gives for the contents and the extensions of such elements.
-/

namespace ApiElements

open Kinds (Shape)
open Outcome (Caught failsAs_ok failsAs_error)
open Payload (isRenderFault)

/--
The parts of an element are of the form that it has when it is read.
-/
structure Element.Formed (e : Element) : Prop where
  proper : e.Proper
  member : e.kind = .member → ∃ key value, e.content = .member (.element key) value
    ∧ (value = .null ∨ ∃ x, value = .element x)
  ref : e.kind = .ref → ∃ href, e.content = .ref href
  select : e.kind = .select → ∃ options : List Element, e.content = .tuple (options.map .element)

namespace Value

variable {kinds : Kinds}

theorem Data.not_holds {v : Value} (h : v.Data) (x : Element) : ¬ v.Holds x := by
  intro hx
  induction hx with
  | list mem _ ih =>
    cases h with
    | list items_data => exact ih (items_data _ mem)
  | entryKey mem _ ih =>
    cases h with
    | object keys_data _ => exact ih (keys_data _ mem)
  | entryValue mem _ ih =>
    cases h with
    | object _ values_data => exact ih (values_data _ mem)
  | _ => cases h

theorem kindOf_of_takes {tag raw : Value} {shape : Shape} (h : kinds.shape tag = .ok shape)
    (takes : shape.Takes raw)
    : shape.kindOf tag ≠ .member ∧ shape.kindOf tag ≠ .ref ∧ shape.kindOf tag ≠ .select := by
  cases Kinds.shaped_of_shape h with
  | reference => simp [Shape.kindOf]
  | literal _ is_literal =>
    refine ⟨?_, ?_, ?_⟩
    all_goals
      rintro rfl
      simp [Kind.tag] at is_literal
  | _ => contradiction

theorem kindOf_of_hasItems {tag : Value} {shape : Shape} (h : kinds.shape tag = .ok shape)
    (has_items : shape.HasItems) : shape.kindOf tag ≠ .member ∧ shape.kindOf tag ≠ .ref := by
  cases Kinds.shaped_of_shape h with
  | reference => simp [Shape.kindOf]
  | sequence _ not_member not_ref =>
    constructor
    . rintro rfl
      exact not_member rfl
    . rintro rfl
      exact not_ref rfl
  | _ => contradiction

theorem all_element {p : Element → Prop} {e : Element} (he : p e) (hcontent : e.content.All p)
    : (Value.element e).All p := by
  intro x hx
  rcases holds_element.1 hx with rfl | hx
  . exact he
  . exact hcontent x hx

theorem all_of_data {p : Element → Prop} {v : Value} (h : v.Data) : v.All p := by
  exact fun x hx => absurd hx (h.not_holds x)

theorem all_member {p : Element → Prop} {key value : Value} (hkey : key.All p) (hvalue : value.All p)
    : (Value.member key value).All p := by
  intro x hx
  rcases holds_member.1 hx with hx | hx
  . exact hkey x hx
  . exact hvalue x hx

/--
All elements that stand in what is read from plain data are formed.
-/
theorem formed_of_reads {d : Value} {e : Element} (h : d.Reads kinds e) (hd : d.Data)
    : (Value.element e).All Element.Formed := by
  induction h with
  | @member entries fields info attributes _ key keyElement heads content_eq key_eq _ _ _ ih =>
    rw [data_object] at hd
    have hfields := content_data hd
    rw [content_eq, data_object] at hfields
    refine all_element ⟨⟨⟨_, rfl⟩, ⟨_, rfl⟩⟩, ?_, ?_, ?_⟩ ?_
    . exact fun _ => ⟨keyElement, .null, rfl, .inl rfl⟩
    . exact fun h => by contradiction
    . exact fun h => by contradiction
    . exact all_member (ih (hfields.get? key_eq)) (all_of_data .null)
  | @memberWithValue entries fields info attributes _ _ _ keyElement valueElement heads content_eq
      key_eq _ _ value_eq _ ih_key ih_value =>
    rw [data_object] at hd
    have hfields := content_data hd
    rw [content_eq, data_object] at hfields
    refine all_element ⟨⟨⟨_, rfl⟩, ⟨_, rfl⟩⟩, ?_, ?_, ?_⟩ ?_
    . exact fun _ => ⟨keyElement, .element valueElement, rfl, .inr ⟨valueElement, rfl⟩⟩
    . exact fun h => by contradiction
    . exact fun h => by contradiction
    . exact all_member (ih_key (hfields.get? key_eq)) (ih_value (hfields.get? value_eq))
  | @ref entries fields info attributes tag href heads content_eq href_eq =>
    rw [data_object] at hd
    have hfields := content_data hd
    rw [content_eq, data_object] at hfields
    refine all_element ⟨⟨⟨_, rfl⟩, ⟨_, rfl⟩⟩, ?_, ?_, ?_⟩ ?_
    . exact fun h => by contradiction
    . exact fun _ => ⟨href, rfl⟩
    . exact fun h => by contradiction
    . intro x hx
      exact absurd (holds_ref.1 hx) ((hfields.get? href_eq).not_holds x)
  | @raw entries info attributes tag shape heads takes =>
    rw [data_object] at hd
    obtain ⟨hmember, href, hselect⟩ := kindOf_of_takes heads.shape_eq takes
    refine all_element ⟨⟨⟨_, rfl⟩, ⟨_, rfl⟩⟩, ?_, ?_, ?_⟩ (all_of_data (content_data hd))
    . exact fun h => absurd h hmember
    . exact fun h => absurd h href
    . exact fun h => absurd h hselect
  | @empty entries info attributes tag kind heads content_eq =>
    obtain ⟨hmember, href⟩ := kindOf_of_hasItems heads.shape_eq trivial
    refine all_element ⟨⟨⟨_, rfl⟩, ⟨_, rfl⟩⟩, ?_, ?_, ?_⟩ (by simp [All, Element.content])
    . exact fun h => absurd h hmember
    . exact fun h => absurd h href
    . exact fun _ => ⟨[], rfl⟩
  | @items entries info attributes tag shape items elements heads has_items content_eq length_eq _
      ih =>
    rw [data_object] at hd
    have hitems := content_data hd
    rw [content_eq, data_list] at hitems
    obtain ⟨hmember, href⟩ := kindOf_of_hasItems heads.shape_eq has_items
    refine all_element ⟨⟨⟨_, rfl⟩, ⟨_, rfl⟩⟩, ?_, ?_, ?_⟩ ?_
    . exact fun h => absurd h hmember
    . exact fun h => absurd h href
    . exact fun _ => ⟨elements, rfl⟩
    . -- An element within the content stands in one of its items.
      intro x hx
      obtain ⟨v, hv, hx⟩ := holds_tuple.1 hx
      obtain ⟨e, he, rfl⟩ := List.mem_map.1 hv
      obtain ⟨i, hi, rfl⟩ := List.getElem_of_mem he
      have hi' : i < items.length := by omega
      have hmem : (items[i], elements[i]) ∈ items.zip elements := by
        rw [← List.getElem_zip (h := by simp; omega)]
        exact List.getElem_mem _
      exact ih _ hmem (hitems _ (List.getElem_mem hi')) x hx

end Value

/--
An element that can be compiled as a whole: unlike one that was read it may be merged, so that its
content need not be of the form that its kind has.
-/
structure Element.Whole (e : Element) : Prop where
  proper : e.Proper
  content : e.content.All Element.Formed

theorem whole_of_all {e : Element} (h : (Value.element e).All Element.Formed) : e.Whole where
  proper := h.self.proper
  content := h.content

section Merge

variable {base e merged : Element} {content kept seen : List Value}

theorem key_of_formed (h : e.Formed) (hkind : e.kind = .member) : ∃ key, e.key = .ok key := by
  obtain ⟨key, value, hcontent, -⟩ := h.member hkind
  unfold Element.key
  rw [hcontent]
  exact ⟨_, rfl⟩

theorem value_of_formed (h : e.Formed) (hkind : e.kind = .member)
    : ∃ value, e.value = .ok value ∧ (value = .null ∨ ∃ x, value = .element x) := by
  obtain ⟨key, value, hcontent, hvalue⟩ := h.member hkind
  unfold Element.value
  rw [hcontent]
  exact ⟨value, rfl, hvalue⟩

theorem caught_mergeContent {v w : Value} (hv : v.All Element.Formed) (hw : w.All Element.Formed)
    : Caught (mergeContent v w) := by
  apply failsAs_mergeContent
  . exact fun _ => caught_asKey
  . intro e he hkind
    obtain ⟨key, hkey⟩ := key_of_formed (he.elim (hv e) (hw e)) hkind
    rw [hkey]
    exact failsAs_ok key

theorem caught_extendBy (hbase : base.Whole) (he : e.Whole) : Caught (base.extendBy e) := by
  obtain ⟨t, ht⟩ := hbase.proper.info
  obtain ⟨u, hu⟩ := hbase.proper.attributes
  obtain ⟨t', ht'⟩ := he.proper.info
  obtain ⟨u', hu'⟩ := he.proper.attributes
  unfold Element.extendBy
  rw [ht, hu, ht', hu']
  apply (failsAs_ok _).bind
  intro info _
  apply (failsAs_ok _).bind
  intro attributes _
  apply (caught_mergeContent hbase.content he.content).bind
  intro content _
  exact failsAs_ok _

theorem whole_of_extendBy (hbase : base.Whole) (he : e.Whole) (h : base.extendBy e = .ok merged)
    : merged.Whole := by
  constructor
  . unfold Element.extendBy at h
    simp only [Outcome.bind_eq_ok, Except.ok.injEq] at h
    obtain ⟨_, -, _, -, _, -, rfl⟩ := h
    exact ⟨⟨_, rfl⟩, ⟨_, rfl⟩⟩
  . obtain ⟨-, hcontent⟩ := extendBy_eq_ok h
    intro x hx
    rcases holds_of_mergeContent hcontent hx with hx | hx
    . exact hbase.content x hx
    . exact he.content x hx

end Merge

/--
What is met is an entry whose elements are all formed, or an include of a type that is not declared,
or a failure that is foreseen.
-/
def Step.Sound : Step → Prop
  | .entry v => v.All Element.Formed
  | .unresolved _ => True
  | .fault cause => isRenderFault cause = true

namespace Registry

variable {r : Registry} {e merged : Element} {content name : Value} {rank : Value → Nat} {depth : Nat}

def Formed (r : Registry) : Prop :=
  ∀ entry ∈ r.types, (Value.element entry.2).All Element.Formed

theorem Formed.whole (h : r.Formed) {declared : Element} (hget : r.types.get? name = some declared)
    : declared.Whole := by
  obtain ⟨id, hmem, -⟩ := Table.mem_of_get? hget
  exact whole_of_all (h _ hmem)

theorem sound_scanEntry {included : Value → List Step} {v : Value} (hv : v.All Element.Formed)
    (hincluded : ∀ e href, v = .element e → e.kind = .ref → e.content = .ref href →
      ∀ step ∈ included href, step.Sound)
    : ∀ step ∈ scanEntry included v, step.Sound := by
  intro step hstep
  unfold scanEntry at hstep
  split at hstep
  . next info attributes content =>
    obtain ⟨href, hcontent⟩ := hv.self.ref rfl
    rw [Element.content] at hcontent
    subst hcontent
    dsimp only at hstep
    split at hstep
    . exact hincluded _ _ rfl rfl rfl step hstep
    . rw [List.mem_singleton] at hstep
      subst hstep
      rfl
  . rw [List.mem_singleton] at hstep
    subst hstep
    exact hv

theorem sound_entriesOf {included : Value → List Step} (hcontent : content.All Element.Formed)
    (hincluded : ∀ e href, .element e ∈ entriesOf content → e.kind = .ref → e.content = .ref href →
      ∀ step ∈ included href, step.Sound)
    : ∀ step ∈ (entriesOf content).flatMap (scanEntry included), step.Sound := by
  intro step hstep
  obtain ⟨v, hv, hscan⟩ := List.mem_flatMap.1 hstep
  cases content with
  | tuple items =>
    refine sound_scanEntry (hcontent.tuple hv) ?_ step hscan
    rintro e href rfl
    exact hincluded e href hv
  | _ => contradiction

/--
An include comes to its end within a depth that suffices, since the ranks on the way go down.
-/
theorem sound_included (hr : r.Formed) (hdescends : Descends (fun _ => True) rank r)
    (hdepth : r.Suffices rank name depth) : ∀ step ∈ r.included depth name, step.Sound := by
  induction depth generalizing name with
  | zero => exact absurd hdepth.1 (Nat.lt_irrefl 0)
  | succ depth ih =>
    unfold included
    split
    . intro step hstep
      rw [List.mem_singleton] at hstep
      subst hstep
      exact True.intro
    . next declared hget =>
      apply sound_entriesOf (hr.whole hget).content
      intro e href he hkind hhref
      apply ih
      apply hdepth.included hdescends.rank_eq hget
      exact hdescends.rank_lt name declared True.intro hget e href he hkind hhref

theorem sound_scan (hr : r.Formed) (hdescends : Descends (fun _ => True) rank r)
    (hcontent : content.All Element.Formed) : ∀ step ∈ r.scan content, step.Sound := by
  apply sound_entriesOf hcontent
  intro e href _ _ _
  exact sound_included hr hdescends (suffices_length r rank href)

theorem caught_resolve (hr : r.Formed) (he : e.Whole) (hkind : e.kind = .named name)
    : Caught (r.resolve e).result := by
  rw [result_resolve r hkind]
  unfold get?
  apply (caught_asKey.bind fun _ _ => failsAs_ok _).bind
  intro found hfound
  cases found with
  | none => exact failsAs_ok _
  | some declared =>
    obtain ⟨-, hget⟩ := get?_eq_ok r hfound
    exact (caught_extendBy (hr.whole hget.symm) he).map _

theorem whole_of_resolve (hr : r.Formed) (he : e.Whole) (hkind : e.kind = .named name)
    (h : (r.resolve e).result = .ok (some merged)) : merged.Whole := by
  obtain ⟨-, ⟨-, hnone⟩ | ⟨declared, merged', hget, hmerged, heq⟩⟩ := resolve_eq_ok r hkind h
  . contradiction
  . injection heq with heq
    subst heq
    exact whole_of_extendBy (hr.whole hget) he hmerged

end Registry

end ApiElements
