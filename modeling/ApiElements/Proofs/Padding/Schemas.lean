import ApiElements.Proofs.Alike.Schemas
import ApiElements.Proofs.Inheritance.Kept
import ApiElements.Proofs.Padding.Examples

/-!
This module contains what blanks may change in schemas: an object may have to have further keys, those
of members that others with the same key have taken the place of, and only if repeated members are
dropped without them. All else is the same, apart from the order of keys and from elements that stand
in schemas as they are.
-/

namespace ApiElements

open Outcome (Relates relates_ok relates_self relates_mapM)
open Registry (Grown GrownBy Placed)

def Value.PaddedContent (blank : Value → Prop) (c c' : Value) : Prop :=
  Padded blank c c' ∨
    ∃ xs ys, c = .tuple xs ∧ c' = .tuple ys ∧ Interspersed blank (Padded blank) xs ys

namespace Value

variable {blank : Value → Prop} {v v' : Value} {xs ys : List Value}

theorem eq_of_interspersed (h : Interspersed blank (Padded blank) xs ys)
    (hblank : ∀ v, blank v → ∃ e, v.Holds e) (hxs : (Value.tuple xs).Bare)
    (hys : (Value.tuple ys).Bare) : xs = ys := by
  induction h with
  | nil => rfl
  | @cons x y xs ys related _ ih =>
    have hx : x.Bare := fun e he => hxs e (.tuple (List.mem_cons_self) he)
    rw [related.eq_of_bare hx, ih]
    . intro e he
      obtain ⟨v, hv, he⟩ := holds_tuple.1 he
      exact hxs e (.tuple (List.mem_cons_of_mem _ hv) he)
    . intro e he
      obtain ⟨v, hv, he⟩ := holds_tuple.1 he
      exact hys e (.tuple (List.mem_cons_of_mem _ hv) he)
  | blank skipped _ _ =>
    obtain ⟨e, he⟩ := hblank _ skipped
    exact absurd (.tuple (List.mem_cons_self) he) (hys e)

theorem PaddedContent.eq_of_bare (h : PaddedContent blank v v')
    (hblank : ∀ v, blank v → ∃ e, v.Holds e) (hv : v.Bare) (hv' : v'.Bare) : v = v' := by
  rcases h with h | ⟨xs, ys, rfl, rfl, items⟩
  . exact h.eq_of_bare hv
  . rw [eq_of_interspersed items hblank hv hv']

theorem paddedContent_of_padded {v v' : Value} (h : Padded blank v v')
    : PaddedContent blank v.contentOrNull v'.contentOrNull := by
  rcases h.element_or_other with ⟨e, e', rfl, rfl, he⟩ | ⟨hother, hother'⟩
  . rcases he.content with hcontent | ⟨-, hcontent⟩
    . exact .inl hcontent
    . exact .inr hcontent
  . have hnull : ∀ w : Value, (∀ e, w ≠ .element e) → w.contentOrNull = .null := by
      intro w hw
      cases w with
      | element e => exact absurd rfl (hw e)
      | _ => rfl
    rw [hnull v hother, hnull v' hother']
    exact .inl (.refl _)

theorem null_same_of_padded (h : PaddedContent blank v v')
    : Value.null.same v = Value.null.same v' := by
  rcases h with h | ⟨xs, ys, rfl, rfl, -⟩
  . cases h with
    | _ => rfl
  . rfl

end Value

namespace Schema

variable {blank : Value → Prop} {moved : Prop} {s s' : Schema} {e e' : Element} {g g' : Gathered}

abbrev CloseIn (blank : Value → Prop) (moved : Prop) : Schema → Schema → Prop :=
  Close (Value.PaddedContent blank) moved

theorem Close.attribute (h : s.CloseIn blank moved s') (hinfo : e.info = e'.info)
    (hattributes : e.attributes = e'.attributes)
    : Relates (CloseIn blank moved) (s.attribute e) (s'.attribute e') := by
  have hdescription : e.description = e'.description := by
    unfold Element.description
    rw [hinfo]
  have hnames : e.typeAttributes = e'.typeAttributes := by
    unfold Element.typeAttributes
    rw [hattributes]
  constructor
  intro t t' ht ht'
  obtain ⟨d, names, hd, hn, rfl⟩ := attribute_eq_ok.1 ht
  obtain ⟨d', names', hd', hn', rfl⟩ := attribute_eq_ok.1 ht'
  rw [← hdescription, hd, Except.ok.injEq] at hd'
  rw [← hnames, hn, Except.ok.injEq] at hn'
  subst hd' hn'
  split
  . exact (h.describe d).admitNull (.inl (.refl _)) fun v v' => Value.null_same_of_padded
  . exact h.describe d

theorem close_ofLiteral (type : SchemaType) (hattributes : e.attributes = e'.attributes)
    : Relates (CloseIn blank moved) (ofLiteral type e) (ofLiteral type e') := by
  unfold ofLiteral
  rw [← hattributes]
  apply (relates_self _).bind
  rintro default _ rfl
  exact relates_ok (close_of_simple rfl rfl rfl rfl .none)

theorem close_ofChoice (hcontent : Value.Padded blank e.content e'.content)
    : Relates (CloseIn blank moved) (ofChoice e) (ofChoice e') := by
  unfold ofChoice
  apply hcontent.items.bind
  intro variants variants' hvariants
  apply relates_ok
  apply close_of_simple rfl rfl rfl rfl
  apply Option.Rel.some
  rw [List.forall₂_map_left_iff, List.forall₂_map_right_iff]
  exact hvariants.imp fun v v' => Value.paddedContent_of_padded

namespace Gathered

abbrev Adds (blank : Value → Prop) (moved : Prop) : Gathered → Gathered → Prop :=
  Near moved (Table.Feeds moved (CloseIn blank moved))

theorem adds_addMember (h : s.CloseIn blank moved s') (hinfo : e.info = e'.info)
    (hattributes : e.attributes = e'.attributes) (key : Value)
    : Relates (Adds blank moved) (({} : Gathered).addMember e key s)
        (({} : Gathered).addMember e' key s') := by
  constructor
  intro g g' hg hg'
  obtain ⟨t, ht, hhashable, hproperties, hexclusive, -⟩ := Registry.addMember_eq_ok hg
  obtain ⟨t', ht', -, hproperties', hexclusive', -⟩ := Registry.addMember_eq_ok hg'
  obtain ⟨names, hnames, hrequired⟩ := Registry.required_addMember hg
  obtain ⟨names', hnames', hrequired'⟩ := Registry.required_addMember hg'
  have hsame : e.typeAttributes = e'.typeAttributes := by
    unfold Element.typeAttributes
    rw [hattributes]
  rw [← hsame, hnames, Except.ok.injEq] at hnames'
  subst hnames'
  constructor
  . rw [hproperties, hproperties']
    have hclose := (h.attribute hinfo hattributes).of_ok t t' ht ht'
    exact (Table.linked_singleton hhashable hclose).feeds
  . rw [hexclusive, hexclusive']
    exact .nil
  . exact fun _ => hexclusive.trans hexclusive'.symm
  . exact hrequired.trans hrequired'.symm

/--
Repeated members that have not been dropped may leave keys that are asked for, and change nothing else.
-/
theorem close_of_displaced {g'' : Gathered} (h : g.schema.CloseIn blank moved g''.schema)
    (possible : moved) (hagrees : Table.Agrees g'.properties g''.properties)
    (hexclusive : g'.exclusive = g''.exclusive)
    (hrequired : ∀ k : Value, k.hashable = true → k.memberOf g''.required = true →
      k.memberOf g'.required = true) : g.schema.CloseIn blank moved g'.schema := by
  have hlinked : Table.Linked moved (CloseIn blank moved) g.properties g'.properties :=
    h.linked.agrees_right hagrees possible
  cases h with
  | @mk _ _ ts ts' type_eq nullable_eq default_eq description_eq enum items_left items_right length_eq
    items properties_iff _ _ _ _ _ exclusive _ required =>
    refine Close.mk type_eq nullable_eq default_eq description_eq enum items_left items_right length_eq
      items rfl hlinked.keyed_left hlinked.keyed_right hlinked.keys_eq hlinked.same_keys
      hlinked.related ?_ ?_ ?_ ?_
    . rw [Gathered.schema, Gathered.schema, hexclusive]
      exact exclusive
    . exact fun hnot => absurd possible hnot
    . exact fun k hk hmem => hrequired k hk (required k hk hmem)
    . exact fun hnot => absurd possible hnot

end Gathered

end Schema

namespace Registry

open Schema (CloseIn Gathered)
open Schema.Gathered (Adds near_empty near_ofOptions adds_addMember near_foldl_add)

variable {r r' : Registry} {moved : Prop} {n : Nat} {v v' content content' : Value}
variable {e e' : Element} {seen : List Value}

structure CloseTo (r r' : Registry) (moved : Prop) (n : Nat) : Prop where
  element : ∀ e e', GrownBy r.Blank moved e e' →
    Relates (CloseIn r.Blank moved) (r.schemaWithin n (.element e)).result
      (r'.schemaWithin n (.element e')).result
  content : ∀ content content', Grown r.Blank moved content content' →
    Relates (CloseIn r.Blank moved) (r.schemaOfObjectWithin n content).result
      (r'.schemaOfObjectWithin n content').result

theorem CloseTo.value (h : r.CloseTo r' moved n) (hv : Value.Padded r.Blank v v')
    : Relates (CloseIn r.Blank moved) (r.schemaWithin n v).result (r'.schemaWithin n v').result := by
  constructor
  intro s s' hs hs'
  obtain ⟨e, rfl⟩ := exists_element_of_schemaWithin hs
  obtain ⟨e', rfl, he⟩ := hv.of_element
  exact (h.element e e' (grownBy_of_paddedBy he)).of_ok s s' hs hs'

theorem CloseTo.entry (h : r.CloseTo r' moved n) (hv : Value.Padded r.Blank v v')
    : Relates (Adds r.Blank moved) (r.schemaEntries n v).result (r'.schemaEntries n v').result := by
  rcases hv.element_or_other with ⟨e, e', rfl, rfl, he⟩ | ⟨hother, hother'⟩
  . unfold schemaEntries
    dsimp only
    rw [← he.kind_eq]
    cases hkind : e.kind with
    | select =>
      have hcontent := he.content_padded (by simp [hkind])
      simp only [Logged.result_bind, Logged.result_liftM, Logged.result_map, Logged.result_mapM]
      apply hcontent.items.bind
      intro options options' hoptions
      exact (relates_mapM hoptions fun v v' => h.value).map fun ss ss' => near_ofOptions
    | member =>
      dsimp only
      rw [← he.key_eq hkind]
      simp only [Logged.result_bind, Logged.result_liftM]
      apply (relates_self e.key).bind
      rintro key _ rfl
      apply (he.value hkind).bind
      intro value value' hvalue
      rw [← hvalue.isNull_eq]
      split
      . exact adds_addMember Schema.close_any he.info_eq he.attributes_eq key
      . simp only [Logged.result_bind, Logged.result_liftM]
        apply (h.value hvalue).bind
        exact fun s s' hs => adds_addMember hs he.info_eq he.attributes_eq key
    | _ => exact relates_ok near_empty
  . rw [schemaEntries_passedOver (passedOver_of_other hother),
      schemaEntries_passedOver (passedOver_of_other hother')]
    exact relates_ok near_empty

theorem CloseTo.same (h : r.Padded r') (hclose : r.CloseTo r' moved n)
    (hcontent : Interspersed r.Blank (Value.Padded r.Blank) (entriesOf content) (entriesOf content'))
    : Relates (CloseIn r.Blank moved) (r.schemaOfObjectWithin (n + 1) content).result
        (r'.schemaOfObjectWithin (n + 1) content').result := by
  rw [schemaOfObjectWithin_eq, schemaOfObjectWithin_eq, Logged.result_map, Logged.result_map]
  apply ((h.scan_steps hcontent).additions fun v v' => hclose.entry).map
  intro gs gs' hgs
  apply Gathered.Near.schema
  exact near_foldl_add ⟨Table.linked_nil, .nil, fun _ => rfl, rfl⟩ hgs

theorem CloseTo.displaced (h : r.Padded r') (hclose : r.CloseTo r' moved n) (possible : moved)
    {xs ys zs : List Value} (kept : keepLast zs = .ok (xs, seen))
    (hentries : Interspersed r.Blank (Value.Padded r.Blank) zs ys)
    : Relates (CloseIn r.Blank moved) (r.schemaOfObjectWithin (n + 1) (.tuple xs)).result
        (r'.schemaOfObjectWithin (n + 1) (.tuple ys)).result := by
  constructor
  intro s s' hs hs'
  -- Without its repeated members the second content is related to the first one.
  obtain ⟨kept', hkept', hentries⟩ :=
    exists_keepLast_of_interspersed (fun v hv => blank_not_member hv) hentries kept
  obtain ⟨s'', t, u, hs'', ht, hu, hagrees, hexclusive⟩ := agrees_schema_of_keepLast hs' hkept'
  have hentries' : Interspersed r.Blank (Value.Padded r.Blank) (entriesOf (.tuple xs))
      (entriesOf (.tuple kept')) := hentries
  have hsame := (hclose.same h hentries').of_ok s s'' hs hs''
  have hrequired := fun k hk => @required_of_keepLast _ _ _ _ _ _ _ hs' hkept' hs'' k hk
  obtain ⟨g, rfl, -⟩ := exists_gathered hs
  obtain ⟨g', rfl, -⟩ := exists_gathered hs'
  obtain ⟨g'', rfl, -⟩ := exists_gathered hs''
  injection ht with ht
  injection hu with hu
  subst ht hu
  exact Gathered.close_of_displaced hsame possible hagrees hexclusive hrequired

theorem CloseTo.kind (hclose : r.CloseTo r' moved n) (h : r.Padded r')
    (hplaced : ¬ moved → Placed r r') (he : GrownBy r.Blank moved e e')
    : Relates (CloseIn r.Blank moved) (r.schemaOfKind n e).result (r'.schemaOfKind n e').result := by
  unfold schemaOfKind
  rw [← he.kind_eq]
  cases hkind : e.kind with
  | boolean => exact Schema.close_ofLiteral .boolean he.attributes_eq
  | number => exact Schema.close_ofLiteral .number he.attributes_eq
  | string => exact Schema.close_ofLiteral .string he.attributes_eq
  | enum => exact Schema.close_ofChoice (he.content_padded (by simp [hkind]))
  | array =>
    have hcontent := he.content_padded (by simp [hkind])
    simp only [Logged.result_bind, Logged.result_liftM, Logged.result_map, Logged.result_mapM]
    apply hcontent.items.bind
    intro items items' hitems
    exact (relates_mapM hitems fun v v' => hclose.value).map fun ss ss' => Schema.close_ofItems
  | object => exact hclose.content e.content e'.content he.grown
  | option => exact hclose.content e.content e'.content he.grown
  | named name =>
    simp only [Logged.result_bind]
    apply (he.resolve h hplaced hkind).bind
    intro found found' hfound
    cases hfound with
    | none => exact relates_ok Schema.close_any
    | some hmerged => exact hclose.element _ _ hmerged
  | _ => exact relates_ok Schema.close_any

theorem closeTo (h : r.Padded r') (hplaced : ¬ moved → Placed r r') (n : Nat)
    : r.CloseTo r' moved n := by
  induction n with
  | zero =>
    constructor
    . intro e e' _
      constructor
      intro s s' hs
      contradiction
    . intro content content' _
      constructor
      intro s s' hs
      contradiction
  | succ n ih =>
    constructor
    . intro e e' he
      rw [schemaWithin_element, schemaWithin_element]
      simp only [Logged.result_bind, Logged.result_liftM]
      apply (ih.kind h hplaced he).bind
      exact fun s s' hs => hs.attribute he.info_eq he.attributes_eq
    . intro content content' hcontent
      cases hcontent with
      | same entries => exact ih.same h entries
      | displaced possible kept entries => exact ih.displaced h possible kept entries

end Registry

end ApiElements
