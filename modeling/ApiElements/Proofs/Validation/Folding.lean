import ApiElements.Proofs.Compile.Tabled
import ApiElements.Proofs.Compile.Termination
import ApiElements.Proofs.Validation.Equal
import ApiElements.Proofs.Validation.Strict
import ApiElements.Proofs.Validation.Valid

/-!
This module contains that the schema of the items of an array accepts what the schemas of the single
items accept, whether or not they were folded into one.
-/

namespace ApiElements

namespace Schema

/--
Two literals stand at the same place among those that two schemas choose from.
-/
inductive Aligned : Schema → Schema → Value → Value → Prop where
  | enum {s t : Schema} {vs ws : List Value} {v w : Value} (left : s.enum = some vs)
    (right : t.enum = some ws) (mem : (v, w) ∈ vs.zip ws) : Aligned s t v w
  | items {s t s' t' : Schema} {v w : Value} (mem : (s', t') ∈ s.items.zip t.items)
    (aligned : Aligned s' t' v w) : Aligned s t v w
  | property {s t : Schema} {ps qs : Table Schema} {p q : Value × Schema} {v w : Value}
    (left : s.properties = some ps) (right : t.properties = some qs) (left_mem : p ∈ ps)
    (right_mem : q ∈ qs) (same : p.1.same q.1 = true) (aligned : Aligned p.2 q.2 v w)
    : Aligned s t v w

/--
A literal of the first schema is taken for a literal of the second one, which is another JSON value.
-/
def Confused (s t : Schema) : Prop :=
  ∃ v w, s.Aligned t v w ∧ v.same w = true ∧ Draft4.equal v w = false

section Congr

open Draft4

variable {s t : Schema} {v x y : Value}

theorem not_confused_of_aligned (h : ¬ s.Confused t) {s' t' : Schema}
    (haligned : ∀ v w, s'.Aligned t' v w → s.Aligned t v w) : ¬ s'.Confused t' := by
  rintro ⟨v, w, hvw, hsame, hequal⟩
  exact h ⟨v, w, haligned v w hvw, hsame, hequal⟩

theorem has_eq_of_same {entries : Table Value} (hentries : entries.TextKeyed) {k k' : Value}
    (h : k.same k' = true) : entries.has k = entries.has k' := by
  apply (matched_self entries).any_eq
  rintro entry hmem _ _ rfl
  obtain ⟨s, hs⟩ := hentries entry hmem
  rw [hs, Bool.eq_iff_iff, Value.same_text, Value.same_text, text_iff_of_same h]

theorem get?_eq_of_same {entries : Table Value} (hentries : entries.TextKeyed) {k k' : Value}
    (h : k.same k' = true) : entries.get? k = entries.get? k' := by
  induction entries with
  | nil => rfl
  | cons entry rest ih =>
    rw [Table.textKeyed_cons] at hentries
    obtain ⟨⟨s, hs⟩, hrest⟩ := hentries
    have hkey : k.same entry.1 = k'.same entry.1 := by
      rw [hs, Bool.eq_iff_iff, Value.same_text, Value.same_text, text_iff_of_same h]
    rw [Table.get?_cons, Table.get?_cons, hkey, ih hrest]

theorem acceptsBy_exclusion (equal : Value → Value → Bool) (ks : List Value) (v : Value)
    : acceptsBy equal (exclusion ks) v = !requiredHolds (.list ks) v := by
  simp [exclusion, acceptsBy_object, keywordHoldsBy, keywordHolds]

theorem same_exclusion {ks ks' : List Value}
    : (exclusion ks).same (exclusion ks') = (Value.list ks).same (.list ks') := by
  simp [exclusion, Value.same, Value.entriesWithin]

theorem requiredHolds_congr (hv : v.IsJson) {ks ks' : List Value}
    (h : (Value.list ks).same (.list ks') = true)
    : requiredHolds (.list ks) v = requiredHolds (.list ks') v := by
  cases hv with
  | @object fields _ _ =>
    apply (Value.matched_of_sameItems h).all_eq
    exact fun k _ k' _ hk => has_eq_of_same (Table.textKeyed_ofFields fields) hk
  | _ => rfl

theorem sameItems_iff {xs ys : List Value}
    : Value.sameItems xs ys = true ↔ List.Forall₂ (fun x y => x.same y = true) xs ys := by
  induction xs generalizing ys with
  | nil =>
    cases ys with
    | nil => simp [Value.sameItems]
    | cons y ys => simp [Value.sameItems]
  | cons x xs ih =>
    cases ys with
    | nil => simp [Value.sameItems]
    | cons y ys => rw [Value.sameItems, Bool.and_eq_true, ih, List.forall₂_cons]

theorem any_eq_of_zip {α β : Type} {xs : List α} {ys : List β} {f : α → Bool} {g : β → Bool}
    (hlength : xs.length = ys.length) (h : ∀ x y, (x, y) ∈ xs.zip ys → f x = g y)
    : xs.any f = ys.any g := by
  induction xs generalizing ys with
  | nil =>
    cases ys with
    | nil => rfl
    | cons y ys => contradiction
  | cons x xs ih =>
    cases ys with
    | nil => contradiction
    | cons y ys =>
      rw [List.any_cons, List.any_cons, h x y (by simp), ih (by simpa using hlength)]
      exact fun x' y' hmem => h x' y' (List.mem_cons_of_mem _ hmem)

theorem acceptsBy_itemsValue {equal : Value → Value → Bool} {documents : List Value}
    (h : itemsValue documents = some x) (v : Value)
    : acceptsBy equal x v = documents.any fun document => acceptsBy equal document v := by
  unfold itemsValue at h
  split at h
  . contradiction
  . injection h with h
    simp [h]
  . injection h with h
    rw [← h, acceptsBy_object, List.all_cons, List.all_nil, Bool.and_true]
    rfl

theorem mem_keywords_toValue {keywords : List (Value × Value)} {k : Value}
    (h : s.toValue = .object keywords) (hmem : (k, x) ∈ keywords)
    : ∃ name, k = .text name ∧ (name, x) ∈ s.given := by
  rw [toValue_eq, Value.object.injEq] at h
  rw [← h, mem_keywords] at hmem
  obtain ⟨name, hk, hargument⟩ := hmem
  exact ⟨name, hk, mem_given.2 hargument⟩

theorem not_anyOf_mem_given : ("anyOf", x) ∉ s.given := by
  intro hmem
  have hname := (names_given s).subset (List.mem_map_of_mem hmem)
  simp [keywordNames] at hname

theorem not_same_choice (s : Schema) (documents : List Value)
    : s.toValue.same (.object [(.text "anyOf", .list documents)]) = false
        ∧ (Value.object [(.text "anyOf", .list documents)]).same s.toValue = false := by
  obtain ⟨keywords, hkeywords⟩ : ∃ keywords, s.toValue = .object keywords := ⟨_, toValue_eq s⟩
  have hnone : ∀ x, (.text "anyOf", x) ∉ keywords := by
    intro x hmem
    obtain ⟨name, hname, hgiven⟩ := mem_keywords_toValue hkeywords hmem
    injection hname with hname
    exact not_anyOf_mem_given (hname ▸ hgiven)
  rw [hkeywords]
  constructor
  . rw [Bool.eq_false_iff]
    intro hsame
    rw [Value.same, Bool.and_eq_true, beq_iff_eq] at hsame
    obtain ⟨entry, hentry⟩ := List.length_eq_one_iff.1 hsame.1
    obtain ⟨y, hy, hkey, -⟩ := Table.exists_of_entriesWithin hsame.2 entry (by simp [hentry])
    rw [List.mem_singleton] at hy
    rw [hy, Value.same_text] at hkey
    apply hnone entry.2
    rw [hentry, List.mem_singleton, ← hkey]
  . rw [Bool.eq_false_iff]
    intro hsame
    rw [Value.same, Bool.and_eq_true] at hsame
    obtain ⟨y, hy, hkey, -⟩ := Table.exists_of_entriesWithin hsame.2 _ (List.mem_singleton_self _)
    rw [Value.text_same] at hkey
    exact hnone y.2 (hkey ▸ hy)

theorem itemsValue_eq_some {documents : List Value} (h : itemsValue documents = some x)
    : documents = [x] ∨ x = .object [(.text "anyOf", .list documents)] := by
  unfold itemsValue at h
  split at h
  . contradiction
  . injection h with h
    exact .inl (by rw [h])
  . injection h with h
    exact .inr h.symm

theorem exists_itemsValue (h : s.items ≠ [])
    : ∃ document, itemsValue (s.items.map toValue) = some document := by
  unfold itemsValue
  split
  . next hnil => exact absurd (List.map_eq_nil_iff.1 hnil) h
  . exact ⟨_, rfl⟩
  . exact ⟨_, rfl⟩

/--
The schemas of items whose documents are equal are equal place by place.
-/
theorem forall₂_items (hx : itemsValue (s.items.map toValue) = some x)
    (hy : itemsValue (t.items.map toValue) = some y) (h : x.same y = true)
    : List.Forall₂ (fun s t => s.same t = true) s.items t.items := by
  have hmap : List.Forall₂ (fun x y => x.same y = true) (s.items.map toValue)
      (t.items.map toValue) := by
    rcases itemsValue_eq_some hx with hsingle | rfl
    . rcases itemsValue_eq_some hy with hsingle' | rfl
      . rw [hsingle, hsingle']
        exact .cons h .nil
      . obtain ⟨s', -, rfl⟩ := List.mem_map.1 (hsingle ▸ List.mem_singleton_self x)
        rw [(not_same_choice s' _).1] at h
        contradiction
    . rcases itemsValue_eq_some hy with hsingle' | rfl
      . obtain ⟨t', -, rfl⟩ := List.mem_map.1 (hsingle' ▸ List.mem_singleton_self y)
        rw [(not_same_choice t' _).2] at h
        contradiction
      . simp only [Value.same, Value.entriesWithin, List.find?_cons, beq_self_eq_true, Bool.and_true,
          Bool.and_eq_true] at h
        exact sameItems_iff.1 h.2
  rw [List.forall₂_map_left_iff, List.forall₂_map_right_iff] at hmap
  exact hmap

theorem enumHolds_eq_of_same (hplain : ¬ s.Confused t) (hv : v.IsJson) (hx : ("enum", x) ∈ s.given)
    (hy : ("enum", y) ∈ t.given) (hxy : x.same y = true)
    : keywordHoldsBy equal (.text "enum") x v = keywordHoldsBy equal (.text "enum") y v := by
  obtain ⟨vs, hvs, rfl⟩ := enum_mem_given.1 hx
  obtain ⟨ws, hws, rfl⟩ := enum_mem_given.1 hy
  have hsame := sameItems_iff.1 hxy
  apply any_eq_of_zip hsame.length_eq
  intro x y hmem
  have hequal : equal x y = true := by
    by_contra hnot
    rw [Bool.not_eq_true] at hnot
    exact hplain ⟨x, y, .enum hvs hws hmem, (List.forall₂_iff_zip.1 hsame).2 hmem, hnot⟩
  exact equal_congr hequal hv

theorem itemsHold_eq_of_same (hv : v.IsJson) (hx : ("items", x) ∈ s.given)
    (hy : ("items", y) ∈ t.given) (hxy : x.same y = true)
    (hitems : ∀ s' t', (s', t') ∈ s.items.zip t.items → s'.same t' = true →
      ∀ v, v.IsJson → acceptsBy equal s'.toValue v = acceptsBy equal t'.toValue v)
    : keywordHoldsBy equal (.text "items") x v = keywordHoldsBy equal (.text "items") y v := by
  have hx' := itemsValue_of_mem_given hx
  have hy' := itemsValue_of_mem_given hy
  have hsame := forall₂_items hx' hy' hxy
  cases hv with
  | list hvs =>
    apply (matched_self _).all_eq
    rintro item hitem _ _ rfl
    rw [acceptsBy_itemsValue hx', acceptsBy_itemsValue hy', List.any_map, List.any_map]
    apply any_eq_of_zip hsame.length_eq
    intro s' t' hmem
    exact hitems s' t' hmem ((List.forall₂_iff_zip.1 hsame).2 hmem) item (hvs item hitem)
  | _ => rfl

theorem propertiesHold_eq_of_same (hs : s.Tabled) (hv : v.IsJson)
    (hx : ("properties", x) ∈ s.given) (hy : ("properties", y) ∈ t.given) (hxy : x.same y = true)
    (hproperties : ∀ ps qs, s.properties = some ps → t.properties = some qs →
      ∀ p ∈ ps, ∀ q ∈ qs, p.1.same q.1 = true → p.2.same q.2 = true →
      ∀ v, v.IsJson → acceptsBy equal p.2.toValue v = acceptsBy equal q.2.toValue v)
    : keywordHoldsBy equal (.text "properties") x v
        =
      keywordHoldsBy equal (.text "properties") y v := by
  obtain ⟨ps, hps, rfl⟩ := properties_mem_given.1 hx
  obtain ⟨qs, hqs, rfl⟩ := properties_mem_given.1 hy
  have hkeyed : Table.Keyed ps := by
    cases hs with
    | mk items keyed property => exact keyed ps hps
  cases hv with
  | @object fields _ hfields =>
    apply ((keyed_map hkeyed toValue).matched hxy).all_eq
    rintro _ hpmap _ hqmap ⟨hkey, hsame⟩
    obtain ⟨p, hp, rfl⟩ := List.mem_map.1 hpmap
    obtain ⟨q, hq, rfl⟩ := List.mem_map.1 hqmap
    rw [get?_eq_of_same (Table.textKeyed_ofFields fields) hkey]
    cases hthing : (Table.ofFields fields).get? q.1 with
    | none => rfl
    | some thing =>
      have hjson : Table.IsJson (Table.ofFields fields) := ⟨fields, rfl, ‹_›, hfields⟩
      exact hproperties ps qs hps hqs p hp q hq hkey hsame thing (hjson.get? hthing)
  | _ => rfl

theorem exclusionsHold_eq_of_same (hv : v.IsJson) (hx : ("allOf", x) ∈ s.given)
    (hy : ("allOf", y) ∈ t.given) (hxy : x.same y = true)
    : keywordHoldsBy equal (.text "allOf") x v = keywordHoldsBy equal (.text "allOf") y v := by
  obtain ⟨-, rfl⟩ := exclusive_mem_given.1 hx
  obtain ⟨-, rfl⟩ := exclusive_mem_given.1 hy
  apply (Value.matched_of_sameItems hxy).all_eq
  intro x hx y hy hsame
  obtain ⟨ks, -, rfl⟩ := List.mem_map.1 hx
  obtain ⟨ks', -, rfl⟩ := List.mem_map.1 hy
  rw [same_exclusion] at hsame
  rw [acceptsBy_exclusion, acceptsBy_exclusion, requiredHolds_congr hv hsame]

/--
Equal arguments of a keyword have the same values accepted if those of equal parts do.
-/
theorem keywordHoldsBy_eq_of_same (hs : s.Tabled) (hplain : ¬ s.Confused t) (hv : v.IsJson)
    {name : String} (hx : (name, x) ∈ s.given) (hy : (name, y) ∈ t.given) (hxy : x.same y = true)
    (hitems : ∀ s' t', (s', t') ∈ s.items.zip t.items → s'.same t' = true →
      ∀ v, v.IsJson → acceptsBy equal s'.toValue v = acceptsBy equal t'.toValue v)
    (hproperties : ∀ ps qs, s.properties = some ps → t.properties = some qs →
      ∀ p ∈ ps, ∀ q ∈ qs, p.1.same q.1 = true → p.2.same q.2 = true →
      ∀ v, v.IsJson → acceptsBy equal p.2.toValue v = acceptsBy equal q.2.toValue v)
    : keywordHoldsBy equal (.text name) x v = keywordHoldsBy equal (.text name) y v := by
  have hname := (names_given s).subset (List.mem_map_of_mem hx)
  simp only [keywordNames, List.mem_cons, List.not_mem_nil, or_false] at hname
  -- A default or a description restricts no value, whatever it says.
  rcases hname with rfl | rfl | rfl | rfl | rfl | rfl | rfl | rfl
  . exact typeHolds_congr hxy v
  . exact enumHolds_eq_of_same hplain hv hx hy hxy
  . rfl
  . exact itemsHold_eq_of_same hv hx hy hxy hitems
  . exact propertiesHold_eq_of_same hs hv hx hy hxy hproperties
  . exact exclusionsHold_eq_of_same hv hx hy hxy
  . obtain ⟨-, rfl⟩ := required_mem_given.1 hx
    obtain ⟨-, rfl⟩ := required_mem_given.1 hy
    exact requiredHolds_congr hv hxy
  . rfl

/--
Equal schemas accept the same JSON values, unless literals of theirs are confused.
-/
theorem accepts_eq_of_same (hs : s.Tabled) (hsame : s.same t = true) (hplain : ¬ s.Confused t)
    (hv : v.IsJson) : acceptsBy equal s.toValue v = acceptsBy equal t.toValue v := by
  induction hs generalizing t v with
  | @mk s items keyed property ih_items ih_property =>
    have hnodup : (s.arguments.map (·.1)).Nodup := by simp [arguments]
    rw [Schema.same, toValue_eq s, toValue_eq t] at hsame
    rw [toValue_eq s, toValue_eq t, acceptsBy_object, acceptsBy_object]
    apply ((keyed_keywords hnodup).matched hsame).all_eq
    rintro ⟨k, x⟩ hx ⟨k', y⟩ hy ⟨hk, hxy⟩
    obtain ⟨name, rfl, hargument⟩ := mem_keywords.1 hx
    obtain rfl := Value.text_same.1 hk
    rw [text_mem_keywords] at hy
    apply keywordHoldsBy_eq_of_same (.mk items keyed property) hplain hv (mem_given.2 hargument)
      (mem_given.2 hy) hxy
    . intro s' t' hmem hsame' v hv
      apply ih_items s' (List.of_mem_zip hmem).1 hsame' ?_ hv
      exact not_confused_of_aligned hplain fun v w => .items hmem
    . intro ps qs hps hqs p hp q hq hkey hsame' v hv
      apply ih_property ps hps p hp hsame' ?_ hv
      exact not_confused_of_aligned hplain fun v w => .property hps hqs hp hq hkey

end Congr

end Schema

namespace Registry

open Draft4 (acceptsBy equal)

variable {r : Registry} {depth : Nat} {e : Element} {s : Schema}

/--
The schema of an array keeps the schemas of its items, or the first one of them if the others equal it.
-/
theorem schemaWithin_array (hkind : e.kind = .array)
    (h : (r.schemaWithin (depth + 1) (.element e)).result = .ok s)
    : ∃ items schemas, e.content.items = .ok items
        ∧ items.mapM (fun item => (r.schemaWithin depth item).result) = .ok schemas
        ∧ s.items = (Schema.ofItems schemas).items := by
  rw [schemaWithin_element, Logged.result_bind, Outcome.bind_eq_ok] at h
  obtain ⟨s', hs', hattribute⟩ := h
  unfold schemaOfKind at hs'
  simp only [hkind, Logged.result_bind, Logged.result_liftM, Logged.result_map, Logged.result_mapM,
    Outcome.bind_eq_ok, Outcome.map_eq_ok] at hs'
  obtain ⟨items, hitems, schemas, hschemas, rfl⟩ := hs'
  exact ⟨items, schemas, hitems, hschemas, (Schema.frames_attribute hattribute).items⟩

/--
An array whose items have schemas has a schema of its items. Whatever this accepts, one of the
schemas of the items accepts, and the other way round, unless the schemas were folded although
literals of theirs are different JSON values.
-/
theorem accepts_items (hkind : e.kind = .array)
    (h : (r.schemaWithin (depth + 1) (.element e)).result = .ok s)
    : ∃ items schemas, e.content.items = .ok items
        ∧ items.mapM (fun item => (r.schemaWithin depth item).result) = .ok schemas
        ∧ ∀ first rest, schemas = first :: rest →
            ∃ document, s.toValue.under? "items" = some document ∧ ∀ v : Value, v.IsJson →
              (acceptsBy equal document v = true →
                ∃ t ∈ schemas, acceptsBy equal t.toValue v = true)
              ∧ (((∀ t ∈ rest, t.same first = true) → ∀ t ∈ rest, ¬ t.Confused first) →
                (∃ t ∈ schemas, acceptsBy equal t.toValue v = true) →
                acceptsBy equal document v = true) := by
  obtain ⟨items, schemas, hitems, hschemas, hkept⟩ := schemaWithin_array hkind h
  refine ⟨items, schemas, hitems, hschemas, ?_⟩
  rintro first rest rfl
  have htabled : ∀ t ∈ first :: rest, t.Tabled := by
    intro t ht
    obtain ⟨item, -, hitem⟩ := Outcome.exists_of_mem_mapM hschemas ht
    exact (tabled_of_schema r depth).1 item t hitem
  have hne : s.items ≠ [] := by
    rw [hkept]
    unfold Schema.ofItems
    dsimp only
    split
    . simp
    . simp
  obtain ⟨document, hdocument⟩ := Schema.exists_itemsValue hne
  refine ⟨document, by rw [Schema.under?_items, hdocument], ?_⟩
  intro v hv
  have hany : acceptsBy equal document v = s.items.any fun t => acceptsBy equal t.toValue v := by
    rw [Schema.acceptsBy_itemsValue hdocument, List.any_map]
    rfl
  rw [hany, List.any_eq_true]
  rw [hkept]
  unfold Schema.ofItems
  dsimp only
  split
  . next hall =>
    rw [List.all_eq_true] at hall
    constructor
    . rintro ⟨t, ht, haccepts⟩
      rw [List.mem_singleton] at ht
      exact ⟨first, by simp, ht ▸ haccepts⟩
    . rintro hplain ⟨t, ht, haccepts⟩
      refine ⟨first, by simp, ?_⟩
      rcases List.mem_cons.1 ht with rfl | hrest
      . exact haccepts
      . rw [← Schema.accepts_eq_of_same (htabled t ht) (hall t hrest) (hplain hall t hrest) hv]
        exact haccepts
  . exact ⟨id, fun _ => id⟩

def choices (variants : List (List Element)) : Element :=
  plainElement .array (.tuple (variants.map fun literals =>
    .element (plainElement .enum (.tuple (literals.map .element)))))

def flag : Element :=
  plainElement .boolean (.bool true)

def one : Element :=
  plainElement .number (.int 1)

def flagOrOne : Schema where
  enum := some [.bool true, .int 1]

theorem not_confused_flagOrOne : ¬ flagOrOne.Confused flagOrOne := by
  rintro ⟨v, w, haligned, -, hequal⟩
  cases haligned with
  | enum left right mem =>
    injection left with left
    injection right with right
    subst left right
    simp only [List.zip_cons_cons, List.zip_nil_right, List.mem_cons, Prod.mk.injEq,
      List.not_mem_nil, or_false] at mem
    rcases mem with ⟨rfl, rfl⟩ | ⟨rfl, rfl⟩
    . contradiction
    . have hone : equal (.int 1) (.int 1) = true := by decide +kernel
      rw [hone] at hequal
      contradiction
  | items mem => exact absurd mem List.not_mem_nil
  | property left => contradiction

theorem accepts_items_flagOrOne
    : (choices [[flag, one], [flag, one]]).kind = .array
        ∧ ∃ s, ((⟨[]⟩ : Registry).schemaWithin 3
              (.element (choices [[flag, one], [flag, one]]))).result = .ok s
          ∧ ∃ document, s.toValue.under? "items" = some document
            ∧ acceptsBy equal document (.int 1) = true := by
  refine ⟨rfl, _, rfl, ?_⟩
  obtain ⟨items, schemas, hitems, hschemas, h⟩ :=
    @accepts_items ⟨[]⟩ 2 (choices [[flag, one], [flag, one]]) _ rfl rfl
  injection hitems with hitems
  subst hitems
  obtain rfl : [flagOrOne, flagOrOne] = schemas := by
    injection hschemas
  obtain ⟨document, hdocument, haccepts⟩ := h flagOrOne [flagOrOne] rfl
  have hone : acceptsBy equal flagOrOne.toValue (.int 1) = true := by decide +kernel
  refine ⟨document, hdocument, (haccepts (.int 1) (.int 1)).2 ?_ ⟨flagOrOne, by simp, hone⟩⟩
  intro _ t ht
  rw [List.mem_singleton] at ht
  rw [ht]
  exact not_confused_flagOrOne

def flagOnly : Schema where
  enum := some [.bool true]

def oneOnly : Schema where
  enum := some [.int 1]

/--
Folding goes by an equality that takes a truth value for a number, so that the number may be lost.
-/
theorem not_accepts_items_flag_one
    : ∃ s, ((⟨[]⟩ : Registry).schemaWithin 3 (.element (choices [[flag], [one]]))).result = .ok s
        ∧ ([flag, one].mapM fun literal => ((⟨[]⟩ : Registry).schemaWithin 2
            (.element (plainElement .enum (.tuple [.element literal])))).result)
          = .ok [flagOnly, oneOnly]
        ∧ s.toValue.under? "items" = some flagOnly.toValue
        ∧ acceptsBy equal flagOnly.toValue (.int 1) = false
        ∧ acceptsBy equal oneOnly.toValue (.int 1) = true := by
  have hfold : (Schema.ofItems [flagOnly, oneOnly]).items = [flagOnly] := by
    have hsame : oneOnly.same flagOnly = true := by decide +kernel
    simp [Schema.ofItems, hsame]
  obtain ⟨s, hs⟩ : ∃ s, ((⟨[]⟩ : Registry).schemaWithin 3
      (.element (choices [[flag], [one]]))).result = .ok s := ⟨_, rfl⟩
  obtain ⟨items, schemas, hitems, hschemas, hkept⟩ := schemaWithin_array rfl hs
  injection hitems with hitems
  subst hitems
  obtain rfl : [flagOnly, oneOnly] = schemas := by
    injection hschemas
  refine ⟨s, hs, rfl, ?_, rfl, by decide +kernel⟩
  rw [Schema.under?_items, hkept, hfold]
  rfl

end Registry

end ApiElements
