import ApiElements.Proofs.Inheritance.Kept
import ApiElements.Proofs.Registry.Flattening
import ApiElements.Proofs.Validation.Folding

/-!
This module contains which keys an object has to have by its schema: those of all its members that are
marked as required, a member that a later one with the same key overrides included.
-/

namespace ApiElements

def Element.carries (e : Element) (name : String) : Bool :=
  match e.typeAttributes with
  | .ok names => (Value.text name).memberOf names
  | .error _ => false

def Element.requiredKey? (m : Element) : Option Value :=
  if m.carries "required" then m.key.toOption else none

section Members

variable {m : Element} {ms : List Element} {k key : Value}

/--
The keys that some members make required, each of them once.
-/
def requiredKeys (ms : List Element) : List Value :=
  (ms.filterMap Element.requiredKey?).foldl Schema.addKey []

def Overridden (ms : List Element) (k : Value) (m : Element) : Prop :=
  ∃ earlier later, ms = earlier ++ m :: later ∧ m.hasKey k = true ∧ (lastWith later k).isSome = true

theorem lastWith_or_overridden (P : Element → Prop)
    : (∃ m ∈ ms, m.hasKey k = true ∧ P m)
        ↔ (∃ m, lastWith ms k = some m ∧ P m) ∨ ∃ m, Overridden ms k m ∧ P m := by
  constructor
  . rintro ⟨m, hmem, hkey, hm⟩
    obtain ⟨earlier, later, rfl⟩ := List.append_of_mem hmem
    cases hlater : lastWith later k with
    | some _ => exact .inr ⟨m, ⟨earlier, later, rfl, hkey, hlater ▸ rfl⟩, hm⟩
    | none =>
      have hlast : lastWith [m] k = some m := by
        rw [lastWith, List.reverse_singleton, List.find?_singleton, if_pos hkey]
      refine .inl ⟨m, ?_, hm⟩
      rw [lastWith_append, lastWith_cons, hlater, hlast]
      rfl
  . rintro (⟨m, hlast, hm⟩ | ⟨m, ⟨earlier, later, rfl, hkey, -⟩, hm⟩)
    . obtain ⟨hmem, hkey⟩ := mem_of_lastWith hlast
      exact ⟨m, hmem, hkey, hm⟩
    . exact ⟨m, by simp, hkey, hm⟩

theorem requiredKey?_of_key (hkey : m.key = .ok key)
    : m.requiredKey? = if m.carries "required" then some key else none := by
  rw [Element.requiredKey?, hkey]
  rfl

theorem requiredKey?_eq_some
    : m.requiredKey? = some key ↔ m.carries "required" = true ∧ m.key = .ok key := by
  unfold Element.requiredKey?
  cases m.key with
  | ok own => simp [Except.toOption]
  | error fault => simp [Except.toOption]

theorem memberOf_requiredKeys (hkeyed : ∀ m ∈ ms, ∃ key, m.key = .ok key ∧ key.hashable = true)
    (hk : k.hashable = true)
    : k.memberOf (requiredKeys ms) = true
        ↔ ∃ m ∈ ms, m.hasKey k = true ∧ m.carries "required" = true := by
  have hhashable : ∀ key ∈ ms.filterMap Element.requiredKey?, key.hashable = true := by
    intro key hmem
    obtain ⟨m, hm, hrequired⟩ := List.mem_filterMap.1 hmem
    obtain ⟨own, hown, hhashable⟩ := hkeyed m hm
    rw [(requiredKey?_eq_some.1 hrequired).2, Except.ok.injEq] at hown
    exact hown ▸ hhashable
  rw [requiredKeys, memberOf_foldl_addKey hhashable hk, Value.memberOf, List.any_nil, Bool.false_or,
    Value.memberOf, List.any_eq_true]
  constructor
  . rintro ⟨key, hmem, hsame⟩
    obtain ⟨m, hm, hrequired⟩ := List.mem_filterMap.1 hmem
    obtain ⟨hcarries, hkey⟩ := requiredKey?_eq_some.1 hrequired
    exact ⟨m, hm, (hasKey_of_key hkey).trans hsame, hcarries⟩
  . rintro ⟨m, hm, hhas, hcarries⟩
    obtain ⟨key, hkey, -⟩ := hkeyed m hm
    rw [hasKey_of_key hkey] at hhas
    exact ⟨key, List.mem_filterMap.2 ⟨m, hm, requiredKey?_eq_some.2 ⟨hcarries, hkey⟩⟩, hhas⟩

end Members

namespace Registry

variable {r : Registry} {depth n : Nat} {v content : Value} {e : Element} {s : Schema}
variable {g : Schema.Gathered}

theorem required_of_schemaEntries (h : (r.schemaEntries depth v).result = .ok g)
    : g.required = (membersOf [v]).filterMap Element.requiredKey? := by
  rcases select_or_member_or_passedOver v with ⟨e, rfl, hselect⟩ | ⟨e, rfl, hmember⟩ | hpassed
  . obtain ⟨options, schemas, -, -, rfl⟩ := schemaEntries_select_eq_ok hselect h
    rw [membersOf_cons_of_other]
    . rfl
    . rintro _ ⟨⟩
      simp [hselect]
  . obtain ⟨key, value, t, hkey, -, -, hadded⟩ := exists_addMember_of_schemaEntries hmember h
    obtain ⟨names, hnames, hrequired⟩ := required_addMember hadded
    rw [membersOf_cons_of_member hmember, hrequired, List.filterMap_cons,
      requiredKey?_of_key hkey, Element.carries, hnames]
    dsimp only
    split
    . rfl
    . rfl
  . rw [schemaEntries_passedOver hpassed] at h
    injection h with h
    rw [← h, membersOf_cons_of_other fun e he => (hpassed e he).2]
    rfl

/--
The members among the entries of some steps that could be compiled have keys, and they alone make
keys required.
-/
theorem required_of_additions {steps : List Step} {gs : List Schema.Gathered}
    (h : (additions (r.schemaEntries depth) steps).result = .ok gs)
    : gs.flatMap Schema.Gathered.required
          = (membersOf (steps.filterMap Step.entry?)).filterMap Element.requiredKey?
        ∧ ∀ m ∈ membersOf (steps.filterMap Step.entry?),
            ∃ key, m.key = .ok key ∧ key.hashable = true := by
  induction steps generalizing gs with
  | nil =>
    injection h with h
    subst h
    exact ⟨rfl, by simp [membersOf]⟩
  | cons step rest ih =>
    cases step with
    | entry v =>
      obtain ⟨g, others, hg, hothers, rfl⟩ := additions_entry_eq_ok.1 h
      obtain ⟨hrequired, hkeyed⟩ := ih hothers
      have hentries : membersOf ((Step.entry v :: rest).filterMap Step.entry?)
          = membersOf [v] ++ membersOf (rest.filterMap Step.entry?) :=
        membersOf_append [v] (rest.filterMap Step.entry?)
      rw [hentries, List.filterMap_append, List.flatMap_cons, hrequired, required_of_schemaEntries hg]
      refine ⟨rfl, List.forall_mem_append.2 ⟨?_, hkeyed⟩⟩
      intro m hm
      obtain ⟨w, hw, hmember⟩ := List.mem_filterMap.1 hm
      obtain ⟨rfl, hkind⟩ := Value.eq_of_member? hmember
      rw [List.mem_singleton] at hw
      obtain ⟨key, _, hkey, hhashable, -⟩ := schemaEntries_member_eq_ok hkind (hw ▸ hg)
      exact ⟨key, hkey, hhashable⟩
    | unresolved href =>
      rw [additions_unresolved] at h
      exact ih h
    | fault fault => contradiction

theorem required_foldl_add (gs : List Schema.Gathered) (g : Schema.Gathered)
    : (gs.foldl Schema.Gathered.add g).required
        = (gs.flatMap Schema.Gathered.required).foldl Schema.addKey g.required := by
  induction gs generalizing g with
  | nil => rfl
  | cons later rest ih =>
    rw [List.foldl_cons, ih, List.flatMap_cons, List.foldl_append]
    rfl

/--
The keys that an object or an option has to have are those of its members, included ones among them,
that are marked as required, in the order of the members. So a key is required if the last member that
has it is marked; but it stays required if only an overridden member is.
-/
theorem required_of_members (hkind : e.kind = .object ∨ e.kind = .option)
    (hs : (r.schemaWithin n (.element e)).result = .ok s)
    : ∃ entries, (r.expand e.content).result = .ok entries
        ∧ s.toValue.under? "required"
            = (if (requiredKeys (membersOf entries)).isEmpty then none
              else some (.list (requiredKeys (membersOf entries))))
        ∧ ∀ k : Value, k.hashable = true →
            (k.memberOf (requiredKeys (membersOf entries)) = true
              ↔ (∃ m, lastWith (membersOf entries) k = some m ∧ m.carries "required" = true)
                ∨ ∃ m, Overridden (membersOf entries) k m ∧ m.carries "required" = true) := by
  obtain ⟨depth, own, hown, hattribute⟩ := exists_schema_of_object hkind hs
  cases depth with
  | zero => contradiction
  | succ depth =>
    rw [schemaOfObjectWithin_eq, Logged.result_map, Outcome.map_eq_ok] at hown
    obtain ⟨gs, hgs, rfl⟩ := hown
    obtain ⟨hrequired, hkeyed⟩ := required_of_additions hgs
    have hexpand := walk_gather_of_sound (not_fault_of_additions hgs) []
    refine ⟨(r.scan e.content).filterMap Step.entry?, ?_, ?_, fun k hk => ?_⟩
    . rw [expand, hexpand]
      rfl
    . rw [Schema.under?_required, (Schema.frames_attribute hattribute).required,
        Schema.Gathered.schema, required_foldl_add, hrequired]
      rfl
    . rw [memberOf_requiredKeys hkeyed hk, lastWith_or_overridden]

section Samples

def filed : Registry where
  types := [(.text "Record", plainElement .object (.tuple [
    .element (.mk .member (.object [])
      (.object [(.text "typeAttributes", .list [.text "required"])])
      (.member (.element (plainElement .string (.text "id"))) .null)),
    .element (plainMember "title" .null)]))]

def draft : Element :=
  plainElement .object (.tuple [.element (includeOf "Record"), .element (plainMember "id" .null)])

theorem required_of_members_draft
    : draft.kind = .object
        ∧ ∃ s entries, (filed.schemaWithin 2 (.element draft)).result = .ok s
            ∧ (filed.expand draft.content).result = .ok entries
            ∧ s.toValue.under? "required" = some (.list [.text "id"])
            ∧ lastWith (membersOf entries) (.text "id") = some (plainMember "id" .null)
            ∧ (plainMember "id" .null).carries "required" = false
            ∧ ∃ m, Overridden (membersOf entries) (.text "id") m ∧ m.carries "required" = true := by
  have hkind : draft.kind = .object := rfl
  obtain ⟨s, hs⟩ : ∃ s, (filed.schemaWithin 2 (.element draft)).result = .ok s := ⟨_, rfl⟩
  obtain ⟨entries, hentries, hrequired, hkeys⟩ := required_of_members (.inl hkind) hs
  obtain ⟨all, hall, hlast, hlisted⟩ : ∃ all, (filed.expand draft.content).result = .ok all
      ∧ lastWith (membersOf all) (.text "id") = some (plainMember "id" .null)
      ∧ requiredKeys (membersOf all) = [.text "id"] := ⟨_, rfl, rfl, rfl⟩
  rw [hentries, Except.ok.injEq] at hall
  subst hall
  rw [hlisted] at hrequired hkeys
  refine ⟨hkind, s, entries, hs, hentries, hrequired, hlast, rfl, ?_⟩
  rcases (hkeys (.text "id") rfl).1 rfl with ⟨m, hm, hcarries⟩ | hoverridden
  . rw [hlast, Option.some.injEq] at hm
    subst hm
    contradiction
  . exact hoverridden

end Samples

end Registry

end ApiElements
