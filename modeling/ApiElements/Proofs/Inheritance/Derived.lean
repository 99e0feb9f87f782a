import ApiElements.Proofs.Inheritance.Derivation

/-!
This module contains what an object gets that includes a derived type: the entries that the
declaration of the type adds itself, but none of those that it inherits. These only a reference to
the type has.
-/

namespace ApiElements

open Element (Layer Layered)
open Outcome (shallow_ok)

namespace Table

variable {α : Type} {t : Table α} {entries : List (Value × α)} {k : Value}

theorem get?_union_eq_or (hentries : ∀ entry ∈ entries, entry.1.hashable = true) (ht : t.Keyed)
    (hk : k.hashable = true) : (t.union entries).get? k = ((ofList entries).get? k).or (t.get? k) := by
  rw [get?_union_of_hashable ht hentries hk, get?_ofList hentries hk]

theorem foldl_union_eq (added : List (Table α)) (t : Table α)
    : added.foldl Table.union t = t.union added.flatten := by
  rw [List.flatten_eq_flatMap]
  exact foldl_union_flatMap id added t

end Table

namespace Registry

section Append

variable {r : Registry} {depth : Nat} {xs ys kept seen : List Value} {t a b : Table Value}

theorem get?_foldl_append {as bs : List (Table Value)} {k : Value}
    (has : (additions (r.exampleEntries depth) (r.scan (.tuple xs))).result = .ok as)
    (hbs : (additions (r.exampleEntries depth) (r.scan (.tuple ys))).result = .ok bs)
    (hk : k.hashable = true)
    : ((as ++ bs).foldl Table.union []).get? k
        = ((bs.foldl Table.union []).get? k).or ((as.foldl Table.union []).get? k) := by
  have hhashable : ∀ {zs cs}, (additions (r.exampleEntries depth) (r.scan (.tuple zs))).result = .ok cs →
      ∀ entry ∈ cs.flatten, entry.1.hashable = true := by
    intro zs cs hcs entry hentry
    obtain ⟨entries, hmem, hentry⟩ := List.mem_flatten.1 hentry
    obtain ⟨v, -, hv⟩ := exists_of_mem_additions hcs entries hmem
    exact hashable_of_exampleEntries (fun _ _ => keyed_of_exampleObjectWithin) hv entry hentry
  rw [List.foldl_append, Table.foldl_union_eq as, Table.foldl_union_eq bs, Table.foldl_union_eq bs []]
  exact Table.get?_union_eq_or (hhashable hbs)
    (Table.keyed_nil.union_of_hashable (hhashable has)) hk

theorem exampleObjectWithin_append_eq_ok
    : (r.exampleObjectWithin (depth + 1) (.tuple (xs ++ ys))).result = .ok t
        ↔
      ∃ as bs, (additions (r.exampleEntries depth) (r.scan (.tuple xs))).result = .ok as
        ∧ (additions (r.exampleEntries depth) (r.scan (.tuple ys))).result = .ok bs
        ∧ (as ++ bs).foldl Table.union [] = t := by
  rw [exampleObjectWithin_eq, Logged.result_map, Outcome.map_eq_ok, scan, entriesOf,
    List.flatMap_append]
  simp only [additions_append_eq_ok, scan, entriesOf]
  constructor
  . rintro ⟨_, ⟨as, bs, has, hbs, rfl⟩, ht⟩
    exact ⟨as, bs, has, hbs, ht⟩
  . rintro ⟨as, bs, has, hbs, ht⟩
    exact ⟨as ++ bs, ⟨as, bs, has, hbs, rfl⟩, ht⟩

theorem exampleObjectWithin_eq_ok
    : (r.exampleObjectWithin (depth + 1) (.tuple xs)).result = .ok t
        ↔
      ∃ as, (additions (r.exampleEntries depth) (r.scan (.tuple xs))).result = .ok as
        ∧ as.foldl Table.union [] = t := by
  rw [exampleObjectWithin_eq, Logged.result_map, Outcome.map_eq_ok]

theorem exists_example_of_append (h : (r.exampleObjectWithin depth (.tuple (xs ++ ys))).result = .ok t)
    : ∃ a b, (r.exampleObjectWithin depth (.tuple xs)).result = .ok a
        ∧ (r.exampleObjectWithin depth (.tuple ys)).result = .ok b
        ∧ ∀ k, k.hashable = true → t.get? k = (b.get? k).or (a.get? k) := by
  cases depth with
  | zero => contradiction
  | succ depth =>
    obtain ⟨as, bs, has, hbs, rfl⟩ := exampleObjectWithin_append_eq_ok.1 h
    exact ⟨_, _, exampleObjectWithin_eq_ok.2 ⟨as, has, rfl⟩,
      exampleObjectWithin_eq_ok.2 ⟨bs, hbs, rfl⟩, fun k hk => get?_foldl_append has hbs hk⟩

theorem exists_example_append (ha : (r.exampleObjectWithin depth (.tuple xs)).result = .ok a)
    (hb : (r.exampleObjectWithin depth (.tuple ys)).result = .ok b)
    : ∃ t, (r.exampleObjectWithin depth (.tuple (xs ++ ys))).result = .ok t
        ∧ ∀ k, k.hashable = true → t.get? k = (b.get? k).or (a.get? k) := by
  cases depth with
  | zero => contradiction
  | succ depth =>
    obtain ⟨as, has, rfl⟩ := exampleObjectWithin_eq_ok.1 ha
    obtain ⟨bs, hbs, rfl⟩ := exampleObjectWithin_eq_ok.1 hb
    exact ⟨_, exampleObjectWithin_append_eq_ok.2 ⟨as, bs, has, hbs, rfl⟩,
      fun k hk => get?_foldl_append has hbs hk⟩

theorem exists_keepLast_of_append (h : keepLast (xs ++ ys) = .ok (kept, seen))
    : ∃ earlier later seen', keepLast ys = .ok (later, seen') ∧ kept = earlier ++ later := by
  rw [keepLast_eq_ok_iff] at h
  induction xs generalizing kept seen with
  | nil => exact ⟨[], kept, seen, h.keepLast_eq, rfl⟩
  | cons v rest ih =>
    cases h with
    | other _ hrest =>
      obtain ⟨earlier, later, seen', hlater, rfl⟩ := ih hrest
      exact ⟨v :: earlier, later, seen', hlater, rfl⟩
    | last _ _ _ _ hrest =>
      obtain ⟨earlier, later, seen', hlater, rfl⟩ := ih hrest
      exact ⟨_ :: earlier, later, seen', hlater, rfl⟩
    | again _ _ _ _ hrest => exact ih hrest

end Append

section Chain

variable {r : Registry} {base declared e merged : Element} {derived : List Element}
variable {own : List Value}

/--
What holds of a reference, and with it of the merge of the type before, holds of an element of the
kind that the chain starts with.
-/
theorem exists_of_chain {p : Element → Prop}
    (hstep : ∀ declared e, r.Extends declared e → p e →
      ∃ merged, declared.extendBy e = .ok merged ∧ p merged)
    (hchain : List.IsChain r.Extends (base :: derived ++ [e])) (h : p e)
    : ∃ whole : Element, whole.kind = base.kind ∧ p whole := by
  induction derived using List.reverseRecOn generalizing e with
  | nil =>
    obtain ⟨hextends, -⟩ := @extends_of_isChain r [] base e hchain
    obtain ⟨merged, hmerged, hp⟩ := hstep base e hextends h
    exact ⟨merged, (extendBy_eq_ok hmerged).1, hp⟩
  | append_singleton derived d ih =>
    obtain ⟨hextends, hbefore⟩ := @extends_of_isChain r (base :: derived) d e hchain
    obtain ⟨merged, hmerged, hp⟩ := hstep d e hextends h
    exact ih (hbefore merged (extendBy_eq_ok hmerged).1) hp

structure EndsWith (own : List Value) (e : Element) : Prop where
  sequence : own ≠ [] → ∃ items, e.content = .tuple items
  entries : ∃ earlier, Interchangeable (entriesOf e.content) (earlier ++ own)

theorem endsWith_nil (e : Element) : EndsWith [] e where
  sequence := by simp
  entries := ⟨entriesOf e.content, by rw [List.append_nil]; exact interchangeable_self _⟩

theorem exists_dropRepeated_of_mergeContent {content content' : Value} {items : List Value}
    (h : mergeContent content (.tuple items) = .ok content')
    : ∃ before kept, dropRepeated (before ++ items) = .ok kept ∧ content' = .tuple kept := by
  have hreplaced : Value.tuple <$> dropRepeated items = .ok content' →
      ∃ before kept, dropRepeated (before ++ items) = .ok kept ∧ content' = .tuple kept := by
    intro h
    obtain ⟨kept, hkept, rfl⟩ := Outcome.map_eq_ok.1 h
    exact ⟨[], kept, hkept, rfl⟩
  cases content with
  | tuple xs =>
    obtain ⟨kept, hkept, rfl⟩ := Outcome.map_eq_ok.1 h
    exact ⟨xs, kept, hkept, rfl⟩
  | _ => exact hreplaced h

theorem EndsWith.extendBy (h : EndsWith own e) (hmerged : declared.extendBy e = .ok merged)
    : EndsWith own merged := by
  by_cases hown : own = []
  . rw [hown]
    exact endsWith_nil merged
  obtain ⟨-, hmerge⟩ := extendBy_eq_ok hmerged
  obtain ⟨items, hitems⟩ := h.sequence hown
  obtain ⟨earlier, hearlier⟩ := h.entries
  rw [hitems] at hmerge hearlier
  obtain ⟨before, kept, hkept, hcontent⟩ := exists_dropRepeated_of_mergeContent hmerge
  refine ⟨fun _ => ⟨kept, hcontent⟩, before ++ earlier, ?_⟩
  rw [hcontent, List.append_assoc]
  exact (interchangeable_dropRepeated hkept).trans ((interchangeable_self before).append hearlier)

end Chain

section Derived

variable {r : Registry} {name : Value} {base declared extending including ref : Element}
variable {derived : List Element} {n m l : Nat} {x y content content' : Value}
variable {own inherited : List Value} {t u w : Table Value}

theorem get?_of_endsWith {earlier : List Value}
    (h : Interchangeable (entriesOf content) (earlier ++ own))
    (hu : (r.exampleObjectWithin n content).result = .ok u)
    (ht : (r.exampleObjectWithin m (.tuple own)).result = .ok t) {k : Value}
    (hk : k.hashable = true) (hsome : (t.get? k).isSome = true) : u.get? k = t.get? k := by
  obtain ⟨kept, seen, hkept⟩ := exists_kept_of_example hu
  have hkept' := h.keepLast_eq ▸ hkept
  obtain ⟨before, later, seen', hlater, rfl⟩ := exists_keepLast_of_append hkept'
  rw [← exampleObjectWithin_entriesOf] at hu
  obtain ⟨u', hu', hagrees⟩ := agrees_example_of_keepLast hu hkept
  obtain ⟨t', ht', hagrees'⟩ := agrees_example_of_keepLast ht hlater
  obtain ⟨a, b, -, hb, hlookup⟩ := exists_example_of_append hu'
  rw [eq_of_exampleObjectWithin ht' hb] at hagrees'
  rw [hagrees'.get?_eq k hk] at hsome ⊢
  rw [hagrees.get?_eq k hk, hlookup k hk, Option.or_of_isSome hsome]

theorem get?_of_appended
    (h : Interchangeable (entriesOf content) (entriesOf content' ++ own))
    (hu : (r.exampleObjectWithin n content).result = .ok u)
    (ht : (r.exampleObjectWithin m (.tuple own)).result = .ok t)
    (hw : (r.exampleObjectWithin l content').result = .ok w) {k : Value} (hk : k.hashable = true)
    : u.get? k = (t.get? k).or (w.get? k) := by
  rw [← exampleObjectWithin_entriesOf] at hw
  rw [← exampleObjectWithin_eq_of_le (Nat.le_max_left m l) (ht ▸ shallow_ok t)] at ht
  rw [← exampleObjectWithin_eq_of_le (Nat.le_max_right m l) (hw ▸ shallow_ok w)] at hw
  obtain ⟨all, hall, hlookup⟩ := exists_example_append hw ht
  rw [(agrees_example_of_interchangeable h hu hall).get?_eq k hk, hlookup k hk]

theorem entriesOf_null : entriesOf .null = [] := by
  rfl

theorem isChain_extended (hchain : List.IsChain r.Extends (base :: derived ++ [declared]))
    (h : r.Extends declared extending)
    : List.IsChain r.Extends (base :: (derived ++ [declared]) ++ [extending]) := by
  rw [← List.cons_append]
  refine List.isChain_append.2 ⟨hchain, List.isChain_singleton extending, ?_⟩
  intro d hd e he
  rw [List.getLast?_append, List.getLast?_singleton, Option.some_or] at hd
  rw [List.head?_cons] at he
  injection hd with hd
  injection he with he
  rw [← hd, ← he]
  exact h

theorem isChain_of_kind {e : Element} (hchain : List.IsChain r.Extends (base :: derived ++ [declared]))
    (hkind : e.kind = declared.kind) : List.IsChain r.Extends (base :: derived ++ [e]) := by
  obtain ⟨hderived, -, hlast⟩ := List.isChain_append.1 hchain
  refine List.isChain_append.2 ⟨hderived, List.isChain_singleton e, ?_⟩
  rintro d hd _ ⟨⟩
  exact (hlast d hd declared (by simp)).of_kind hkind

/--
The bare reference to a derived type comes to an object whose entries end with those that the
declaration adds.
-/
theorem exists_endsWith_of_reference
    (hchain : List.IsChain r.Extends (base :: derived ++ [declared]))
    (hcontent : Sequential declared.content) (hextends : r.Extends declared extending)
    (hbare : extending.content = .null) (hy : (r.exampleWithin m (.element extending)).result = .ok y)
    : ∃ whole : Element, whole.kind = base.kind
        ∧ (∃ n, (r.exampleWithin n (.element whole)).result = .ok y)
        ∧ EndsWith (entriesOf declared.content) whole := by
  obtain ⟨merged, hmerged, hexample⟩ := hextends.exists_example ⟨m, hy⟩
  obtain ⟨hkind, hmerge⟩ := extendBy_eq_ok hmerged
  rw [hbare] at hmerge
  injection hmerge with hmerge
  have hends : EndsWith (entriesOf declared.content) merged := by
    rw [hmerge]
    refine ⟨?_, [], interchangeable_self _⟩
    intro hne
    rcases hmerge ▸ hcontent with hnull | hitems
    . rw [hnull] at hne
      contradiction
    . exact hitems
  refine exists_of_chain ?_ (isChain_of_kind hchain hkind) ⟨hexample, hends⟩
  intro d e hd ⟨hexample, hends⟩
  obtain ⟨merged, hmerged, hexample⟩ := hd.exists_example hexample
  exact ⟨merged, hmerged, hexample, hends.extendBy hmerged⟩

/--
Under a key that the declaration does not add a reference to a derived type has what the type before
has, as far as that has an example.
-/
theorem get?_of_inherited {parent : Element}
    (hchain : List.IsChain r.Extends (base :: derived ++ [declared])) (hobject : base.kind = .object)
    (hextends : r.Extends declared extending) (hbare : extending.content = .null)
    (hparent : parent.kind = declared.kind) (hbare' : parent.content = .null)
    (hlayers : ∀ d ∈ base :: derived ++ [declared, extending, parent], d.Layer)
    (hy : (r.exampleWithin m (.element extending)).result = .ok (.object u))
    (hw : (r.exampleWithin l (.element parent)).result = .ok (.object w))
    (ht : (r.exampleObjectWithin n (.tuple (entriesOf declared.content))).result = .ok t)
    {k : Value} (hk : k.hashable = true) : u.get? k = (t.get? k).or (w.get? k) := by
  obtain ⟨hderived, hlast⟩ := List.forall_mem_append.1 hlayers
  simp only [List.forall_mem_cons] at hlast
  obtain ⟨hdeclared, hextending, hparent', -⟩ := hlast
  have hdeclared' : ∀ d ∈ base :: (derived ++ [declared]), d.Layer := by
    rw [← List.cons_append]
    exact List.forall_mem_append.2 ⟨hderived, List.forall_mem_singleton.2 hdeclared⟩
  -- Both references come to merges of layers, one of which has the declaration on top.
  obtain ⟨whole, hwhole, n', hn'⟩ := exists_layered_of_chain
    (p := fun e => ∃ n, (r.exampleWithin n (.element e)).result = .ok (.object u))
    (fun _ _ h _ _ => h.exists_example) (isChain_extended hchain hextends) hdeclared' hextending
    (.single extending) ⟨m, hy⟩
  obtain ⟨before, hbefore, l', hl'⟩ := exists_layered_of_chain
    (p := fun e => ∃ n, (r.exampleWithin n (.element e)).result = .ok (.object w))
    (fun _ _ h _ _ => h.exists_example) (isChain_of_kind hchain hparent) hderived hparent'
    (.single parent) ⟨l, hw⟩
  obtain ⟨depth, u', hu', heq⟩ := exists_example_of_object (hwhole.kind.trans hobject) hn'
  obtain ⟨depth', w', hw', heq'⟩ := exists_example_of_object (hbefore.kind.trans hobject) hl'
  injection heq with heq
  injection heq' with heq'
  subst heq heq'
  have hsums := (hwhole.sums (List.forall_mem_append.2
    ⟨hdeclared', List.forall_mem_singleton.2 hextending⟩)).entries
  have hsums' := (hbefore.sums (List.forall_mem_append.2
    ⟨hderived, List.forall_mem_singleton.2 hparent'⟩)).entries
  simp only [List.flatMap_cons, List.flatMap_append, List.flatMap_nil, hbare, hbare',
    entriesOf_null, List.append_nil] at hsums hsums'
  rw [← List.append_assoc] at hsums
  exact get?_of_appended (hsums.trans (hsums'.symm.append (interchangeable_self _))) hu' ht hw' hk

theorem hashable_of_example (hnamed : extending.kind = .named name)
    (hy : (r.exampleWithin m (.element extending)).result = .ok y) : name.hashable = true := by
  cases m with
  | zero => contradiction
  | succ m =>
    rw [exampleWithin] at hy
    simp only [hnamed, Logged.result_bind, Outcome.bind_eq_ok] at hy
    obtain ⟨found, hfound, -⟩ := hy
    exact (resolve_eq_ok r hnamed hfound).1

/--
An object that includes a derived type, and a reference to the type. If they have examples, these are
objects. The first one is made from the entries alone that the declaration of the type adds. The
second one has the same under all its keys, but it may have further ones, so that both are equal only
if it has not; and these are those that the type before has.
-/
theorem example_of_derived_inclusion (hget : r.types.get? name = some declared)
    (hchain : List.IsChain r.Extends (base :: derived ++ [declared])) (hobject : base.kind = .object)
    (hcontent : Sequential declared.content) (hnamed : extending.kind = .named name)
    (hbare : extending.content = .null) (hincluding : including.kind = .object)
    (hentries : including.content = .tuple [.element ref]) (href : ref.kind = .ref)
    (hhref : ref.content = .ref name) (hx : (r.exampleWithin n (.element including)).result = .ok x)
    (hy : (r.exampleWithin m (.element extending)).result = .ok y)
    : ∃ t u : Table Value, x = .object t ∧ y = .object u
        ∧ (∃ depth, (r.exampleObjectWithin depth declared.content).result = .ok t)
        ∧ (∀ k, k.hashable = true → (t.get? k).isSome = true → u.get? k = t.get? k)
        ∧ (t.Agrees u ↔ ∀ k, k.hashable = true → (u.get? k).isSome = true → (t.get? k).isSome = true)
        ∧ ∀ parent : Element, parent.kind = declared.kind → parent.content = .null →
            (∀ d ∈ base :: derived ++ [declared, extending, parent], d.Layer) →
            ∀ (l : Nat) (w : Table Value),
            (r.exampleWithin l (.element parent)).result = .ok (.object w) →
            ∀ k, k.hashable = true → u.get? k = (t.get? k).or (w.get? k) := by
  have hextends : r.Extends declared extending := ⟨name, hnamed, hget⟩
  have hname := hashable_of_example hnamed hy
  obtain ⟨depth, t, ht, rfl⟩ := exists_example_of_including hget hincluding hentries href hhref hname hx
  rw [List.append_nil] at ht
  obtain ⟨whole, hkind, ⟨n', hwhole⟩, hends⟩ :=
    exists_endsWith_of_reference hchain hcontent hextends hbare hy
  obtain ⟨depth', u, hu, rfl⟩ := exists_example_of_object (hkind.trans hobject) hwhole
  obtain ⟨earlier, hearlier⟩ := hends.entries
  -- The entries that the type adds stand last in the whole, and the last ones decide.
  have hown := fun k hk => @get?_of_endsWith r _ _ _ _ t u earlier hearlier hu ht k hk
  refine ⟨t, u, rfl, rfl, ⟨depth, ?_⟩, hown, ⟨?_, ?_⟩, ?_⟩
  . rw [← exampleObjectWithin_entriesOf]
    exact ht
  . intro hagrees k hk hsome
    rw [hagrees.get?_eq k hk]
    exact hsome
  . intro hkeys
    refine ⟨keyed_of_exampleObjectWithin ht, keyed_of_exampleObjectWithin hu, ?_⟩
    intro k hk
    by_cases hsome : (t.get? k).isSome = true
    . exact (hown k hk hsome).symm
    . have hnone := mt (hkeys k hk) hsome
      rw [Option.not_isSome_iff_eq_none] at hsome hnone
      rw [hsome, hnone]
  . intro parent hparent hbare' hlayers l w hw k hk
    exact get?_of_inherited hchain hobject hextends hbare hparent hbare' hlayers hy hw ht hk

def employeeRef : Element :=
  plainElement .object (.tuple [.element (plainElement .ref (.ref (.text "Employee")))])

/--
An object that includes employees lacks the alias, which only persons have, and a reference to an
employee has it.
-/
theorem example_of_derived_inclusion_employee
    : ∃ t u w : Table Value, (staff.exampleOf employeeRef).result = .ok (.object t)
        ∧ (staff.exampleOf (plainElement (.named (.text "Employee")) .null)).result = .ok (.object u)
        ∧ (staff.exampleOf (plainElement (.named (.text "Person")) .null)).result = .ok (.object w)
        ∧ t.get? (.text "alias") = none ∧ (w.get? (.text "alias")).isSome = true
        ∧ u.get? (.text "alias") = w.get? (.text "alias") ∧ ¬ t.Agrees u := by
  obtain ⟨x, hx⟩ : ∃ x, (staff.exampleOf employeeRef).result = .ok x := ⟨_, rfl⟩
  obtain ⟨y, hy⟩ : ∃ y,
      (staff.exampleOf (plainElement (.named (.text "Employee")) .null)).result = .ok y := ⟨_, rfl⟩
  obtain ⟨w, hw, halias⟩ : ∃ w : Table Value,
      (staff.exampleOf (plainElement (.named (.text "Person")) .null)).result = .ok (.object w)
        ∧ (Table.get? w (.text "alias")).isSome = true := ⟨_, rfl, rfl⟩
  have hchain : List.IsChain staff.Extends ([person] ++ [employee]) := by
    simp only [List.cons_append, List.nil_append, List.isChain_cons_cons, List.isChain_singleton,
      and_true]
    exact ⟨_, rfl, rfl⟩
  obtain ⟨t, u, rfl, rfl, ⟨depth, hdepth⟩, hown, hagrees, hinherited⟩ :=
    @example_of_derived_inclusion staff (.text "Employee") person employee
      (plainElement (.named (.text "Employee")) .null) employeeRef _ [] nestingLimit nestingLimit x y
      rfl hchain rfl (.inr ⟨_, rfl⟩) rfl rfl rfl rfl rfl rfl hx hy
  have hnone : t.get? (.text "alias") = none := by
    have hobject : (staff.exampleOf employeeRef).result = .ok (.object
        [(.text "name", .null), (.text "salary", .int 1)]) := rfl
    rw [hobject] at hx
    injection hx with hx
    injection hx with hx
    rw [← hx]
    rfl
  have hlayers : ∀ d ∈ [person, employee, plainElement (.named (.text "Employee")) .null,
      plainElement (.named (.text "Person")) .null], d.Layer := by
    simp only [List.forall_mem_cons]
    exact ⟨layer_plainElement (.inr ⟨_, rfl⟩), layer_employee, layer_plainElement (.inl rfl),
      layer_plainElement (.inl rfl), by simp⟩
  have halias' := hinherited (plainElement (.named (.text "Person")) .null) rfl rfl hlayers
    nestingLimit w hw (.text "alias") rfl
  rw [hnone, Option.none_or] at halias'
  refine ⟨t, u, w, hx, hy, hw, hnone, halias, halias', ?_⟩
  intro h
  have hsome := hagrees.1 h (.text "alias") rfl (halias' ▸ halias)
  rw [hnone] at hsome
  contradiction

end Derived

end Registry

end ApiElements
