import ApiElements.Proofs.Codec.Registered
import ApiElements.Proofs.Codec.RoundTrip
import ApiElements.Proofs.Compile.Visit
import ApiElements.Proofs.Value.Keyed
import Mathlib.Logic.Relation

/-!
This module contains that type attributes may be spelled in either of two ways, as a list of names or
as an array element that holds a string element for each name. Data in which any number of such lists
have been spelled out is read as the same element.
-/

namespace ApiElements

open Kinds (Shape)

/--
Two tables are the same but for what they have under a name.
-/
inductive Table.OneApart (name : String) (x y : Value) : Table Value → Table Value → Prop where
  | intro (pre : Table Value) (fresh : pre.get? (.text name) = none) (post : Table Value)
    : OneApart name x y (pre ++ (.text name, x) :: post) (pre ++ (.text name, y) :: post)

namespace Table

variable {name : String} {x y : Value} {t u : Table Value}

theorem OneApart.cons (h : t.OneApart name x y u) {entry : Value × Value}
    (hentry : (Value.text name).same entry.1 = false)
    : OneApart name x y (entry :: t) (entry :: u) := by
  cases h with
  | intro pre fresh post =>
    refine .intro (entry :: pre) ?_ post
    rw [get?_cons, hentry]
    exact fresh

theorem OneApart.get?_left (h : t.OneApart name x y u) : t.get? (.text name) = some x := by
  cases h with
  | intro pre fresh post => rw [get?_append, fresh, get?_cons, if_pos (by simp), Option.none_or]

theorem OneApart.get?_right (h : t.OneApart name x y u) : u.get? (.text name) = some y := by
  cases h with
  | intro pre fresh post => rw [get?_append, fresh, get?_cons, if_pos (by simp), Option.none_or]

theorem OneApart.get?_eq (h : t.OneApart name x y u) {other : String} (hother : other ≠ name)
    : t.get? (.text other) = u.get? (.text other) := by
  cases h with
  | intro pre fresh post =>
    rw [get?_append, get?_append, get?_cons, get?_cons, Value.text_same_text, if_neg (by simpa),
      if_neg (by simpa)]

theorem OneApart.put_eq (h : t.OneApart name x y u) (v : Value)
    : t.put (.text name) v = u.put (.text name) v := by
  cases h with
  | intro pre fresh post =>
    have hnew : ∀ entry ∈ pre, ¬ (Value.text name).same entry.1 := by
      intro entry hmem
      rw [get?_eq_none_iff.1 fresh entry hmem]
      exact Bool.false_ne_true
    rw [put_append_of_not_same hnew, put_append_of_not_same hnew, put_cons, put_cons,
      if_pos (by simp), if_pos (by simp)]

theorem OneApart.put (h : t.OneApart name x y u) (key v : Value)
    : (t.put key v).OneApart name x y (u.put key v) ∨ t.put key v = u.put key v := by
  cases h with
  | intro pre fresh post =>
    induction pre with
    | nil =>
      rw [List.nil_append, List.nil_append, put_cons, put_cons]
      split
      . exact .inr rfl
      . exact .inl (.intro [] fresh _)
    | cons entry rest ih =>
      have hentry := get?_eq_none_iff.1 fresh entry (by simp)
      rw [get?_cons, hentry] at fresh
      rw [List.cons_append, List.cons_append, put_cons, put_cons]
      split
      . exact .inl ((OneApart.intro rest fresh post).cons hentry)
      . rcases ih fresh with hapart | heq
        . exact .inl (hapart.cons hentry)
        . exact .inr (by rw [heq])

theorem OneApart.union (h : t.OneApart name x y u) (entries : List (Value × Value))
    : (t.union entries).OneApart name x y (u.union entries) ∨ t.union entries = u.union entries := by
  unfold Table.union
  induction entries generalizing t u with
  | nil => exact .inl h
  | cons entry rest ih =>
    rcases h.put entry.1 entry.2 with hapart | heq
    . exact ih hapart
    . exact .inr (by rw [List.foldl_cons, List.foldl_cons, heq])

theorem oneApart_of_put (t : Table Value) (name : String) (x y : Value)
    : (t.put (.text name) x).OneApart name x y (t.put (.text name) y) := by
  induction t with
  | nil => exact .intro [] rfl []
  | cons entry rest ih =>
    rw [put_cons, put_cons]
    split
    . next hsame =>
      rw [Value.text_same.1 hsame]
      exact .intro [] rfl rest
    . next hsame => exact ih.cons (by simpa using hsame)

theorem oneApart_ofList (before after : List (Value × Value)) (name : String) (x y : Value)
    : (ofList (before ++ (.text name, x) :: after)).OneApart name x y
          (ofList (before ++ (.text name, y) :: after))
        ∨ ofList (before ++ (.text name, x) :: after) = ofList (before ++ (.text name, y) :: after) := by
  unfold ofList
  rw [union_append, union_append]
  exact (oneApart_of_put _ name x y).union after

end Table

def spelledOut (names : List Value) : Value :=
  .object [(.text "element", .text "array"), (.text "content", .list (names.map fun name =>
    .object [(.text "element", .text "string"), (.text "content", name)]))]

/--
In attributes, a list of names has been spelled out. The attributes are an object, or the list of its
entries.
-/
inductive Value.RespelledNames : Value → Value → Prop where
  | object {t u : Table Value} {names : List Value}
    (apart : t.OneApart "typeAttributes" (.list names) (spelledOut names) u)
    : RespelledNames (.object t) (.object u)
  | pairs (before after : List Value) (names : List Value)
    : RespelledNames (.list (before ++ .list [.text "typeAttributes", .list names] :: after))
      (.list (before ++ .list [.text "typeAttributes", spelledOut names] :: after))

/--
In data, a list of names has been spelled out: in the attributes of the element that the data stands
for, in those of an item of its content, or in those of its key or value.
-/
inductive Value.Respelled : Value → Value → Prop where
  | attributes {t u : Table Value} {a b : Value} (apart : t.OneApart "attributes" a b u)
    (respelled : RespelledNames a b) : Respelled (.object t) (.object u)
  | item {t u : Table Value} (before after : List Value) {x y : Value}
    (apart : t.OneApart "content" (.list (before ++ x :: after)) (.list (before ++ y :: after)) u)
    (respelled : Respelled x y) : Respelled (.object t) (.object u)
  | field {t u fields fields' : Table Value} (name : String) {x y : Value}
    (tag : t.get? (.text "element") = some (.text "member"))
    (apart : t.OneApart "content" (.object fields) (.object fields') u)
    (name_mem : name ∈ ["key", "value"]) (inner : fields.OneApart name x y fields')
    (respelled : Respelled x y) : Respelled (.object t) (.object u)

namespace Value

variable {kinds : Kinds} {a b d d' x y : Value} {t u fields fields' : Table Value} {names : List Value}

theorem unwrapNames_spelledOut (names : List Value)
    : unwrapNames (spelledOut names) = .ok (.list names) := by
  have hitems : (names.map fun name =>
      Value.object [(.text "element", .text "string"), (.text "content", name)]).mapM
      (fun item => item.field "content") = .ok names := by
    rw [Outcome.mapM_eq_ok, List.forall₂_map_left_iff, List.forall₂_same]
    exact fun _ _ => rfl
  have hread : unwrapNames (spelledOut names)
      = (do
        let items ← (Value.list (names.map fun name =>
          .object [(.text "element", .text "string"), (.text "content", name)])).itemsOrNone
        .list <$> items.mapM fun item => item.field "content") := by
    rfl
  rw [hread, itemsOrNone_eq_items rfl, Outcome.ok_bind, hitems, Outcome.map_ok]

def fixedNames (entries : Table Value) : Except Fault (Table Value) :=
  match entries.get? (.text "typeAttributes") with
  | none => .ok entries
  | some v => do
    match ← unwrapNames v with
    | .list names => .ok (entries.put (.text "typeAttributes") (.tuple names))
    | .tuple names => .ok (entries.put (.text "typeAttributes") (.tuple names))
    | _ => .ok entries

theorem attributesOf_eq (raw : Value) : attributesOf raw = raw.entriesOrNone >>= fixedNames := by
  rfl

theorem fixedNames_eq (h : t.OneApart "typeAttributes" (.list names) (spelledOut names) u)
    : fixedNames t = fixedNames u := by
  rw [fixedNames, fixedNames, h.get?_left, h.get?_right]
  dsimp only
  rw [unwrapNames_spelledOut, unwrapNames, Outcome.ok_bind, Outcome.ok_bind]
  . dsimp only
    rw [h.put_eq]
  . simp
  . simp

theorem entriesOrNone_pairs (before after : List Value) (name : String) (v : Value)
    : (Value.list (before ++ .list [.text name, v] :: after)).entriesOrNone
        =
      (do
        let xs ← before.mapM pair
        let ys ← after.mapM pair
        .ok (Table.ofList (xs ++ (.text name, v) :: ys))) := by
  have hpresent : (Value.list (before ++ .list [.text name, v] :: after)).truthy = true := by
    simp [truthy]
  rw [entriesOrNone, if_pos hpresent, Value.items, Outcome.ok_bind, List.mapM_append]
  . cases before.mapM pair with
    | error fault => rfl
    | ok xs =>
      rw [List.mapM_cons]
      cases after.mapM pair with
      | error fault => rfl
      | ok ys => rfl
  . simp

theorem RespelledNames.attributesOf_eq (h : a.RespelledNames b) : attributesOf a = attributesOf b := by
  rw [Value.attributesOf_eq, Value.attributesOf_eq]
  cases h with
  | object apart =>
    rw [entriesOrNone_object, entriesOrNone_object, Outcome.ok_bind, Outcome.ok_bind,
      fixedNames_eq apart]
  | pairs before after names =>
    rw [entriesOrNone_pairs, entriesOrNone_pairs]
    simp only [bind_assoc, Outcome.ok_bind]
    congr 1
    funext xs
    congr 1
    funext ys
    rcases Table.oneApart_ofList xs ys "typeAttributes" (.list names) (spelledOut names) with hapart | heq
    . exact fixedNames_eq hapart
    . rw [heq]

theorem contentOf_of_content (h : t.content = u.content) (shape : Shape)
    : contentOf kinds t shape = contentOf kinds u shape := by
  cases shape with
  | member => rw [contentOf, contentOf, decodeMemberIn_eq, decodeMemberIn_eq, h]
  | ref => rw [contentOf, contentOf, h]
  | literal kind => rw [contentOf, contentOf, h]
  | sequence kind => rw [contentOf, contentOf, decodeSequenceIn_eq, decodeSequenceIn_eq, h]
  | reference => rw [contentOf, contentOf, decodeExtensionIn_eq, decodeExtensionIn_eq, h]

theorem contentOf_of_items {xs ys : List Value} (ht : t.content = .list xs) (hu : u.content = .list ys)
    (h : Value.decodeAll kinds xs = Value.decodeAll kinds ys) (shape : Shape)
    : contentOf kinds t shape = contentOf kinds u shape := by
  cases shape with
  | member => rw [contentOf, contentOf, decodeMemberIn_eq, decodeMemberIn_eq, ht, hu]
  | ref =>
    rw [contentOf, contentOf, ht, hu]
    rfl
  | literal kind =>
    rw [contentOf, contentOf, ht, hu]
    rfl
  | sequence kind =>
    rw [contentOf, contentOf, decodeSequenceIn_eq, decodeSequenceIn_eq, ht, hu]
    dsimp only
    rw [h]
  | reference =>
    rw [contentOf, contentOf, decodeExtensionIn_eq, decodeExtensionIn_eq, ht, hu]
    dsimp only
    rw [h]

theorem decodeAll_eq_of_one (before after : List Value)
    (h : Value.decode kinds x = Value.decode kinds y)
    : Value.decodeAll kinds (before ++ x :: after) = Value.decodeAll kinds (before ++ y :: after) := by
  induction before with
  | nil => rw [List.nil_append, List.nil_append, decodeAll, decodeAll, h]
  | cons first rest ih => rw [List.cons_append, List.cons_append, decodeAll, decodeAll, ih]

theorem Respelled.ne_null (h : x.Respelled y) : x ≠ .null ∧ y ≠ .null := by
  cases h with
  | _ => simp

theorem member_eq_of_one {name : String} (ht : t.content = .object fields)
    (hu : u.content = .object fields') (hname : name ∈ ["key", "value"])
    (inner : fields.OneApart name x y fields') (hne : x ≠ .null ∧ y ≠ .null)
    (h : Value.decode kinds x = Value.decode kinds y)
    : Value.decodeMemberIn kinds t = Value.decodeMemberIn kinds u := by
  rw [decodeMemberIn_eq, decodeMemberIn_eq, ht, hu]
  dsimp only
  simp only [List.mem_cons, List.not_mem_nil, or_false] at hname
  rcases hname with rfl | rfl
  . have hkey : Value.decodeKeyIn kinds fields = Value.decodeKeyIn kinds fields' := by
      rw [decodeKeyIn_eq, decodeKeyIn_eq, inner.get?_left, inner.get?_right]
      dsimp only
      rw [h]
    have hvalue : Value.decodeValueIn kinds fields = Value.decodeValueIn kinds fields' := by
      rw [decodeValueIn_eq, decodeValueIn_eq, inner.get?_eq (by decide)]
    rw [hkey, hvalue]
  . have hkey : Value.decodeKeyIn kinds fields = Value.decodeKeyIn kinds fields' := by
      rw [decodeKeyIn_eq, decodeKeyIn_eq, inner.get?_eq (by decide)]
    have hvalue : Value.decodeValueIn kinds fields = Value.decodeValueIn kinds fields' := by
      rw [decodeValueIn_eq, decodeValueIn_eq, inner.get?_left, inner.get?_right, Option.getD_some,
        Option.getD_some]
      split
      . exact absurd rfl hne.1
      . split
        . exact absurd rfl hne.2
        . rw [h]
    rw [hkey, hvalue]

/--
If two objects are one apart in their contents, and these are read as the same, then so are the objects.
-/
theorem decode_eq_of_content {c c' : Value} (apart : t.OneApart "content" c c' u)
    (h : ∀ tag shape, t.get? (.text "element") = some tag → kinds.shape tag = .ok shape →
      contentOf kinds t shape = contentOf kinds u shape)
    : Value.decode kinds (.object t) = Value.decode kinds (.object u) := by
  rw [decode_object, decode_object, ← apart.get?_eq (by decide), ← apart.get?_eq (by decide),
    ← apart.get?_eq (by decide)]
  split
  . rfl
  . next tag htag =>
    congr 1
    funext info
    congr 1
    funext attributes
    cases hshape : kinds.shape tag with
    | error fault => rfl
    | ok shape => rw [Outcome.ok_bind, Outcome.ok_bind, h tag shape htag hshape]

theorem content_eq_of_oneApart {c c' : Value} (apart : t.OneApart "content" c c' u)
    : t.content = c ∧ u.content = c' := by
  rw [Table.content, Table.content, apart.get?_left, apart.get?_right]
  exact ⟨rfl, rfl⟩

/--
To spell out one list of names changes nothing.
-/
theorem decode_of_respelled (h : d.Respelled d') : Value.decode kinds d' = Value.decode kinds d := by
  induction h with
  | @attributes t u a b apart respelled =>
    rw [decode_object, decode_object, apart.get?_eq (by decide), apart.get?_eq (by decide),
      apart.get?_left, apart.get?_right, Option.getD_some, Option.getD_some,
      respelled.attributesOf_eq]
    have hcontent : t.content = u.content := by
      rw [Table.content, Table.content, apart.get?_eq (by decide)]
    simp only [contentOf_of_content hcontent]
  | item before after apart _ ih =>
    obtain ⟨ht, hu⟩ := content_eq_of_oneApart apart
    symm
    apply decode_eq_of_content apart
    intro tag shape _ _
    exact contentOf_of_items ht hu (decodeAll_eq_of_one before after ih.symm) shape
  | field name tag apart name_mem inner respelled ih =>
    obtain ⟨ht, hu⟩ := content_eq_of_oneApart apart
    symm
    apply decode_eq_of_content apart
    intro tag' shape htag hshape
    rw [tag, Option.some.injEq] at htag
    rw [← htag, Kinds.shape_member, Except.ok.injEq] at hshape
    rw [← hshape]
    exact member_eq_of_one ht hu name_mem inner respelled.ne_null ih.symm

/--
Any number of lists of names may be spelled out: the data is read as the same element, or fails in the
same way, and is written as the same data after that.
-/
theorem decode_respelled (h : Relation.ReflTransGen Respelled d d')
    : Value.decode kinds d' = Value.decode kinds d ∧ d'.normalize kinds = d.normalize kinds := by
  have hdecode : Value.decode kinds d' = Value.decode kinds d := by
    induction h with
    | refl => rfl
    | tail _ step ih => rw [decode_of_respelled step, ih]
  refine ⟨hdecode, ?_⟩
  rw [normalize, normalize, hdecode]

section Samples

def invoice (own member total : Value) : Value :=
  .object [(.text "element", .text "object"),
    (.text "attributes", .object [(.text "typeAttributes", own)]),
    (.text "content", .list [.object [(.text "element", .text "member"),
      (.text "attributes", .object [(.text "typeAttributes", member)]),
      (.text "content", .object [
        (.text "key", .object [(.text "element", .text "string"), (.text "content", .text "total")]),
        (.text "value", .object [(.text "element", .text "number"),
          (.text "attributes", .object [(.text "typeAttributes", total)])])])]])]

theorem oneApart_only {name : String} {x y : Value}
    : Table.OneApart name x y [(.text name, x)] [(.text name, y)] := by
  exact .intro [] rfl []

theorem respelledNames_only (names : List Value)
    : RespelledNames (.object [(.text "typeAttributes", .list names)])
        (.object [(.text "typeAttributes", spelledOut names)]) := by
  exact .object oneApart_only

theorem respelled_own (names : List Value) (member total : Value)
    : (invoice (.list names) member total).Respelled (invoice (spelledOut names) member total) := by
  exact .attributes (.intro [(.text "element", .text "object")] rfl _)
    (respelledNames_only names)

theorem respelled_member (own : Value) (names : List Value) (total : Value)
    : (invoice own (.list names) total).Respelled (invoice own (spelledOut names) total) := by
  refine .item [] [] (.intro [(.text "element", .text "object"),
    (.text "attributes", .object [(.text "typeAttributes", own)])] rfl []) ?_
  exact .attributes (.intro [(.text "element", .text "member")] rfl _)
    (respelledNames_only names)

theorem respelled_total (own member : Value) (names : List Value)
    : (invoice own member (.list names)).Respelled (invoice own member (spelledOut names)) := by
  refine .item [] [] (.intro [(.text "element", .text "object"),
    (.text "attributes", .object [(.text "typeAttributes", own)])] rfl []) ?_
  refine .field "value" rfl (.intro [(.text "element", .text "member"),
    (.text "attributes", .object [(.text "typeAttributes", member)])] rfl []) (by simp)
    (.intro [_] rfl []) ?_
  exact .attributes (.intro [(.text "element", .text "number")] rfl [])
    (respelledNames_only names)

/--
Names that are no texts, and no names at all, are spelled out as well as others.
-/
theorem decode_respelled_invoice
    : Relation.ReflTransGen Respelled
          (invoice (.list [.text "fixed"]) (.list [.text "required", .int 1]) (.list []))
          (invoice (spelledOut [.text "fixed"]) (spelledOut [.text "required", .int 1]) (spelledOut []))
        ∧ (∃ e, Value.decode Kinds.builtIn (invoice (spelledOut [.text "fixed"])
            (spelledOut [.text "required", .int 1]) (spelledOut [])) = .ok e)
        ∧ (invoice (spelledOut [.text "fixed"]) (spelledOut [.text "required", .int 1])
            (spelledOut [])).normalize Kinds.builtIn
          = .ok (invoice (.list [.text "fixed"]) (.list [.text "required", .int 1]) (.list [])) := by
  have hrespelled : Relation.ReflTransGen Respelled
      (invoice (.list [.text "fixed"]) (.list [.text "required", .int 1]) (.list []))
      (invoice (spelledOut [.text "fixed"]) (spelledOut [.text "required", .int 1])
        (spelledOut [])) := by
    have hown := Relation.ReflTransGen.single
      (respelled_own [.text "fixed"] (.list [.text "required", .int 1]) (.list []))
    exact (hown.tail (respelled_member _ _ _)).tail (respelled_total _ _ _)
  obtain ⟨hdecode, hnormalize⟩ := @decode_respelled Kinds.builtIn _ _ hrespelled
  exact ⟨hrespelled, ⟨_, hdecode.trans rfl⟩, hnormalize.trans rfl⟩

end Samples

end Value

end ApiElements
