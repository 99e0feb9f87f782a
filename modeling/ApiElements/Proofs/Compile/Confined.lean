import ApiElements.Proofs.Compile.Termination

/-!
This module contains which declarations a compilation depends on: those of the names that stand in
what is compiled, of the names that stand in these declarations, and so on. Registries that agree on
such names give the same answers, with the same log.
-/

namespace ApiElements

def Element.Within (S : Value → Prop) (e : Element) : Prop :=
  ∀ name, e.RefersTo name → S name

namespace Logged

variable {α β : Type}

theorem bind_congr_of_ok {x : Logged α} {f g : α → Logged β} (h : ∀ a, x.result = .ok a → f a = g a)
    : x >>= f = x >>= g := by
  cases hx : x.result with
  | ok a => rw [bind_of_ok f hx, bind_of_ok g hx, h a hx]
  | error fault => rw [bind_of_error f hx, bind_of_error g hx]

theorem mapM_congr {f g : α → Logged β} {as : List α} (h : ∀ a ∈ as, f a = g a)
    : as.mapM f = as.mapM g := by
  induction as with
  | nil => rfl
  | cons a as ih =>
    rw [List.mapM_cons, List.mapM_cons, h a (by simp), ih fun a hmem => h a (List.mem_cons_of_mem _ hmem)]

theorem foldlM_congr {f g : β → α → Logged β} {as : List α}
    (h : ∀ a ∈ as, ∀ state, f state a = g state a) (state : β)
    : as.foldlM f state = as.foldlM g state := by
  induction as generalizing state with
  | nil => rfl
  | cons a as ih =>
    rw [List.foldlM_cons, List.foldlM_cons, h a (by simp)]
    congr 1
    funext state'
    exact ih (fun a hmem => h a (List.mem_cons_of_mem _ hmem)) state'

end Logged

namespace Registry

variable {r r' : Registry} {S : Value → Prop} {rank : Value → Nat}

/--
Two registries have the same declarations under the names of a set, and these refer to names of the
set only.
-/
structure AgreeOn (S : Value → Prop) (r r' : Registry) : Prop where
  get?_eq : ∀ name, S name → name.hashable = true → r.types.get? name = r'.types.get? name
  closed : ∀ name declared, S name → r.types.get? name = some declared →
    (Value.element declared).All (Element.Within S)

/--
The includes among the entries of a declaration are of types that are not declared, or of types of a
lower rank. Equal names have the same rank.
-/
structure Descends (S : Value → Prop) (rank : Value → Nat) (r : Registry) : Prop where
  rank_eq : ∀ name name', name.same name' = true → rank name = rank name'
  rank_lt : ∀ name declared, S name → r.types.get? name = some declared →
    ∀ e href, .element e ∈ entriesOf declared.content → e.kind = .ref → e.content = .ref href →
    (r.types.get? href).isSome = true → rank href < rank name

/--
A rank of texts as one of all names.
-/
def textRank (rank : String → Nat) : Value → Nat
  | .text s => rank s
  | _ => 0

def includedNames (content : Value) : List Value :=
  (entriesOf content).filterMap fun v =>
    match v with
    | .element (.mk .ref _ _ (.ref href)) => some href
    | _ => none

theorem descends_of_texts {rank : String → Nat} (htexts : r.types.TextKeyed)
    (hlt : ∀ entry ∈ r.types, ∀ href ∈ includedNames entry.2.content,
      textRank rank href < textRank rank entry.1)
    : Descends (fun _ => True) (textRank rank) r where
  rank_eq := by
    intro name name' hsame
    cases name with
    | text s => rw [Value.text_same.1 hsame]
    | _ =>
      cases name' with
      | text s' => exact absurd (Value.same_text.1 hsame) (by simp)
      | _ => rfl
  rank_lt := by
    intro name declared _ hget e href he hkind hhref _
    obtain ⟨id, hmem, hsame⟩ := Table.mem_of_get? hget
    obtain ⟨s, hs⟩ := htexts _ hmem
    dsimp only at hs
    subst hs
    rw [Value.same_text.1 hsame]
    refine hlt _ hmem href (List.mem_filterMap.2 ⟨_, he, ?_⟩)
    cases e with
    | mk kind info attributes content =>
      rw [Element.kind] at hkind
      rw [Element.content] at hhref
      rw [hkind, hhref]

section Scan

variable {content v name : Value} {depth depth' : Nat}

theorem scanEntry_congr {included included' : Value → List Step}
    (h : ∀ e href, v = .element e → e.kind = .ref → e.content = .ref href → href.hashable = true →
      included href = included' href) : scanEntry included v = scanEntry included' v := by
  unfold scanEntry
  split
  . split
    . split
      . next hhashable => exact h _ _ rfl rfl rfl hhashable
      . rfl
    . rfl
  . rfl

theorem all_entriesOf {p : Element → Prop} (h : content.All p) : ∀ v ∈ entriesOf content, v.All p := by
  intro v hv
  cases content with
  | tuple items => exact h.tuple hv
  | _ => contradiction

section Kept

variable {p : Element → Prop} {w : Value}
variable (hincludes : ∀ e href, p e → e.kind = .ref → e.content = .ref href → S href)
variable (hdeclared : ∀ name declared, S name → r.types.get? name = some declared →
  declared.content.All p)

include hincludes

theorem all_of_scanEntry {included : Value → List Step} (hv : v.All p)
    (hincluded : ∀ href, S href → .entry w ∈ included href → w.All p)
    (h : .entry w ∈ scanEntry included v) : w.All p := by
  unfold scanEntry at h
  split at h
  . split at h
    . split at h
      . exact hincluded _ (hincludes _ _ hv.self rfl rfl) h
      . simp at h
    . simp at h
  . rw [List.mem_singleton, Step.entry.injEq] at h
    rw [h]
    exact hv

include hdeclared

theorem all_of_included (hname : S name) (hw : .entry w ∈ r.included depth name) : w.All p := by
  induction depth generalizing name with
  | zero => simp [included] at hw
  | succ depth ih =>
    unfold included at hw
    split at hw
    . simp at hw
    . next declared hget =>
      obtain ⟨v, hv, hw⟩ := List.mem_flatMap.1 hw
      have hcontent := hdeclared name declared hname hget
      exact all_of_scanEntry hincludes (all_entriesOf hcontent v hv) (fun href hhref => ih hhref) hw

/--
What all elements of a content and of the declarations that it includes have in common, all those have
that are met on the way.
-/
theorem all_of_scan (hcontent : content.All p) (hw : .entry w ∈ r.scan content) : w.All p := by
  obtain ⟨v, hv, hw⟩ := List.mem_flatMap.1 hw
  apply all_of_scanEntry hincludes (all_entriesOf hcontent v hv) ?_ hw
  exact fun href hhref => all_of_included hincludes hdeclared hhref

end Kept

theorem AgreeOn.all_of_scan (h : AgreeOn S r r') (hcontent : content.All (Element.Within S)) {w : Value}
    (hw : .entry w ∈ r.scan content) : w.All (Element.Within S) := by
  refine Registry.all_of_scan (S := S) ?_ ?_ hcontent hw
  . exact fun e href he hkind hhref => he href (.inr ⟨hkind, hhref⟩)
  . exact fun name declared hname hget => (h.closed name declared hname hget).content

/--
A depth that suffices for the includes of a name: more than there are types of its rank or a lower
one, if it is declared.
-/
def Suffices (r : Registry) (rank : Value → Nat) (name : Value) (depth : Nat) : Prop :=
  0 < depth ∧ ((r.types.get? name).isSome = true →
    r.types.countP (fun entry => rank entry.1 ≤ rank name) < depth)

theorem suffices_length (r : Registry) (rank : Value → Nat) (name : Value)
    : r.Suffices rank name (r.types.length + 1) := by
  refine ⟨by omega, fun _ => ?_⟩
  have := List.countP_le_length (p := fun entry : Value × Element => rank entry.1 ≤ rank name)
    (l := r.types)
  omega

theorem Suffices.included {declared : Element} {href : Value}
    (h : r.Suffices rank name (depth + 1))
    (hrank : ∀ name name', name.same name' = true → rank name = rank name')
    (hget : r.types.get? name = some declared)
    (hlt : (r.types.get? href).isSome = true → rank href < rank name)
    : r.Suffices rank href depth := by
  obtain ⟨id, hmem, hsame⟩ := Table.mem_of_get? hget
  have hid := hrank name id hsame
  have hcount := h.2 (by rw [hget]; rfl)
  have hpos : 0 < r.types.countP (fun entry => rank entry.1 ≤ rank name) := by
    rw [List.countP_pos_iff]
    exact ⟨_, hmem, by simp [hid]⟩
  refine ⟨by omega, fun hsome => ?_⟩
  -- The declaration itself has the rank of its name, and no type of a lower rank is it.
  have hfewer := countP_lt_of_mem (p := fun entry : Value × Element => rank entry.1 ≤ rank href)
    (q := fun entry => rank entry.1 ≤ rank name) (by have := hlt hsome; simp; omega) hmem
    (by have := hlt hsome; simp; omega) (by simp [hid])
  omega

theorem AgreeOn.included_eq (h : AgreeOn S r r') (hdescends : Descends S rank r) (hname : S name)
    (hhashable : name.hashable = true) (hdepth : r.Suffices rank name depth)
    (hdepth' : r'.Suffices rank name depth')
    : r.included depth name = r'.included depth' name := by
  induction depth generalizing name depth' with
  | zero => exact absurd hdepth.1 (Nat.lt_irrefl 0)
  | succ depth ih =>
    obtain ⟨depth', rfl⟩ := Nat.exists_eq_succ_of_ne_zero (Nat.pos_iff_ne_zero.1 hdepth'.1)
    have hagree := h.get?_eq name hname hhashable
    rw [included, included, ← hagree]
    cases hget : r.types.get? name with
    | none => rfl
    | some declared =>
      dsimp only
      apply List.flatMap_congr
      intro v hv
      apply scanEntry_congr
      rintro e href rfl hkind hhref hhashable'
      have hdeclared := (h.closed name declared hname hget).content
      have hS : S href := (all_entriesOf hdeclared _ hv).self href (.inr ⟨hkind, hhref⟩)
      have hlt := hdescends.rank_lt name declared hname hget e href hv hkind hhref
      apply ih hS hhashable' (hdepth.included hdescends.rank_eq hget hlt)
      apply hdepth'.included hdescends.rank_eq (hagree ▸ hget)
      rw [← h.get?_eq href hS hhashable']
      exact hlt

theorem AgreeOn.scan_eq (h : AgreeOn S r r') (hdescends : Descends S rank r)
    (hcontent : content.All (Element.Within S)) : r.scan content = r'.scan content := by
  unfold scan
  apply List.flatMap_congr
  intro v hv
  apply scanEntry_congr
  rintro e href rfl hkind hhref hhashable
  have hS : S href := (all_entriesOf hcontent _ hv).self href (.inr ⟨hkind, hhref⟩)
  exact h.included_eq hdescends hS hhashable (suffices_length r rank href) (suffices_length r' rank href)

end Scan

section Compile

variable {e merged : Element} {v content : Value} {n : Nat}

/--
The type that an element extends and the names in its content are among those of a set.
-/
structure Confined (S : Value → Prop) (e : Element) : Prop where
  named : ∀ name, e.kind = .named name → S name
  content : e.content.All (Element.Within S)

theorem confined_of_all (h : (Value.element e).All (Element.Within S)) : Confined S e where
  named := fun name hname => h.self name (.inl hname)
  content := h.content

theorem AgreeOn.resolve_eq (h : AgreeOn S r r') (he : Confined S e) : r.resolve e = r'.resolve e := by
  unfold resolve Element.typeName
  cases hkind : e.kind with
  | named name =>
    dsimp only
    rw [Logged.liftM_ok, pure_bind, pure_bind]
    have hget : r.get? name = r'.get? name := by
      unfold get? Value.asKey
      split
      . next hhashable =>
        rw [Outcome.ok_bind, Outcome.ok_bind, h.get?_eq name (he.named name hkind) hhashable]
      . rfl
    rw [hget]
  | _ => rfl

theorem AgreeOn.confined_of_resolve (h : AgreeOn S r r') (he : Confined S e) {name : Value}
    (hkind : e.kind = .named name) (hmerged : (r.resolve e).result = .ok (some merged))
    : Confined S merged := by
  obtain ⟨-, ⟨-, hnone⟩ | ⟨declared, merged', hget, hextend, heq⟩⟩ := resolve_eq_ok r hkind hmerged
  . contradiction
  injection heq with heq
  subst heq
  have hdeclared := h.closed name declared (he.named name hkind) hget
  obtain ⟨hkind', hcontent⟩ := extendBy_eq_ok hextend
  constructor
  . intro name' hname'
    exact hdeclared.self name' (.inl (hkind' ▸ hname'))
  . intro x hx
    rcases holds_of_mergeContent hcontent hx with hx | hx
    . exact hdeclared.content x hx
    . exact he.content x hx

theorem walk_congr {σ : Type} {visit visit' : σ → Value → Logged σ} {steps : List Step}
    (h : ∀ v, .entry v ∈ steps → ∀ state, visit state v = visit' state v) (state : σ)
    : walk visit state steps = walk visit' state steps := by
  induction steps generalizing state with
  | nil => rfl
  | cons step rest ih =>
    have hrest := ih fun v hmem => h v (List.mem_cons_of_mem _ hmem)
    cases step with
    | entry v =>
      rw [walk, walk, h v (by simp)]
      congr 1
      funext state'
      exact hrest state'
    | unresolved href =>
      rw [walk, walk]
      congr 1
      funext _
      exact hrest state
    | fault fault => rfl

section Visits

variable (hvalue : ∀ v, v.All (Element.Within S) → r.exampleWithin n v = r'.exampleWithin n v)
variable (hobject : ∀ content, content.All (Element.Within S) →
  r.exampleObjectWithin n content = r'.exampleObjectWithin n content)
variable (hschema : ∀ v, v.All (Element.Within S) → r.schemaWithin n v = r'.schemaWithin n v)

include hvalue hobject in
theorem exampleVisit_congr (hv : v.All (Element.Within S)) (t : Table Value)
    : r.exampleVisit n t v = r'.exampleVisit n t v := by
  unfold exampleVisit
  split
  . next e =>
    split
    . split
      . apply Logged.bind_congr_of_ok
        intro variant hvariant
        apply Logged.bind_congr_of_ok
        intro chosen hchosen
        cases variant with
        | element option =>
          injection hchosen with hchosen
          subst hchosen
          rw [hobject _ (hv.content.first hvariant).content]
        | _ => contradiction
      . rfl
    . apply Logged.bind_congr_of_ok
      intro value hfound
      rw [hvalue value (hv.value hfound)]
    . rfl
  . rfl

include hschema in
theorem schemaVisit_congr (hv : v.All (Element.Within S)) (g : Schema.Gathered)
    : r.schemaVisit n g v = r'.schemaVisit n g v := by
  unfold schemaVisit
  split
  . next e =>
    split
    . apply Logged.bind_congr_of_ok
      intro options hoptions
      congr 1
      apply Logged.foldlM_congr
      intro option hmem state
      rw [hschema option (hv.content.items hoptions option hmem)]
    . apply Logged.bind_congr_of_ok
      intro key _
      apply Logged.bind_congr_of_ok
      intro value hfound
      rw [hschema value (hv.value hfound)]
    . rfl
  . rfl

end Visits

variable (h : AgreeOn S r r')
variable (hscan : ∀ content, content.All (Element.Within S) → r.scan content = r'.scan content)

include h hscan

/--
Registries that agree on the names within an element, and go through contents in the same steps, give
the same examples.
-/
theorem AgreeOn.example_eq (n : Nat)
    : (∀ e, Confined S e → r.exampleWithin n (.element e) = r'.exampleWithin n (.element e))
        ∧ ∀ content, content.All (Element.Within S) →
            r.exampleObjectWithin n content = r'.exampleObjectWithin n content := by
  induction n with
  | zero => exact ⟨fun _ _ => rfl, fun _ _ => rfl⟩
  | succ n ih =>
    obtain ⟨helement, hobject⟩ := ih
    -- What is no element is its own example under both registries.
    have hvalue : ∀ v, v.All (Element.Within S) → r.exampleWithin n v = r'.exampleWithin n v := by
      intro v hv
      cases v with
      | element e => exact helement e (confined_of_all hv)
      | _ => cases n <;> rfl
    constructor
    . intro e he
      rw [exampleWithin, exampleWithin]
      cases hkind : e.kind with
      | enum =>
        dsimp only
        split
        . apply Logged.bind_congr_of_ok
          intro first hfirst
          exact hvalue first (he.content.first hfirst)
        . rfl
      | array =>
        apply Logged.bind_congr_of_ok
        intro items hitems
        rw [Logged.mapM_congr fun v hv => hvalue v (he.content.items hitems v hv)]
      | object =>
        dsimp only
        rw [hobject e.content he.content]
      | named name =>
        dsimp only
        rw [← h.resolve_eq he]
        apply Logged.bind_congr_of_ok
        intro found hfound
        cases found with
        | none => rfl
        | some merged => exact helement merged (h.confined_of_resolve he hkind hfound)
      | _ => rfl
    . intro content hcontent
      rw [exampleObjectWithin_succ, exampleObjectWithin_succ, ← hscan content hcontent]
      apply walk_congr
      intro v hv t
      exact exampleVisit_congr hvalue hobject (h.all_of_scan hcontent hv) t

theorem AgreeOn.schema_eq (n : Nat)
    : (∀ e, Confined S e → r.schemaWithin n (.element e) = r'.schemaWithin n (.element e))
        ∧ ∀ content, content.All (Element.Within S) →
            r.schemaOfObjectWithin n content = r'.schemaOfObjectWithin n content := by
  induction n with
  | zero => exact ⟨fun _ _ => rfl, fun _ _ => rfl⟩
  | succ n ih =>
    obtain ⟨helement, hobject⟩ := ih
    -- What is no element has a schema under neither registry.
    have hvalue : ∀ v, v.All (Element.Within S) → r.schemaWithin n v = r'.schemaWithin n v := by
      intro v hv
      cases v with
      | element e => exact helement e (confined_of_all hv)
      | _ => cases n <;> rfl
    constructor
    . intro e he
      rw [schemaWithin_element, schemaWithin_element]
      congr 1
      unfold schemaOfKind
      cases hkind : e.kind with
      | array =>
        apply Logged.bind_congr_of_ok
        intro items hitems
        rw [Logged.mapM_congr fun v hv => hvalue v (he.content.items hitems v hv)]
      | object => exact hobject e.content he.content
      | option => exact hobject e.content he.content
      | named name =>
        dsimp only
        rw [← h.resolve_eq he]
        apply Logged.bind_congr_of_ok
        intro found hfound
        cases found with
        | none => rfl
        | some merged => exact helement merged (h.confined_of_resolve he hkind hfound)
      | _ => rfl
    . intro content hcontent
      rw [schemaOfObjectWithin_succ, schemaOfObjectWithin_succ, ← hscan content hcontent]
      congr 1
      apply walk_congr
      intro v hv g
      exact schemaVisit_congr hvalue (h.all_of_scan hcontent hv) g

end Compile

end Registry

end ApiElements
