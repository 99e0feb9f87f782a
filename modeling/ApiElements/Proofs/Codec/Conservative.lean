import ApiElements.Proofs.Codec.Registered
import ApiElements.Proofs.Payload.Foreseen

/-!
This module contains that it changes nothing for the data of others to register kinds. A table only
grows at its end, under tags that are free, so that data without the new tags is read as before.
-/

namespace ApiElements

namespace Kinds

structure Attempt where
  name : String
  given : Option String := none

def Attempt.tag (a : Attempt) : String :=
  a.given.getD (derivedTag a.name)

def attempt (kinds : Kinds) (a : Attempt) : Kinds :=
  match kinds.register a.name a.given with
  | .ok extended => extended
  | .error _ => kinds

def attempts (kinds : Kinds) (as : List Attempt) : Kinds :=
  as.foldl attempt kinds

def NewTag (kinds : Kinds) (tag : String) : Prop :=
  tag ∈ kinds.tags ∧ tag ∉ builtIn.tags

instance (kinds : Kinds) (tag : String) : Decidable (kinds.NewTag tag) :=
  inferInstanceAs (Decidable (_ ∧ _))

variable {kinds kinds' : Kinds} {tag : String} {a : Attempt}

theorem ofTag?_eq_none_iff : kinds.ofTag? tag = none ↔ tag ∉ kinds.tags := by
  constructor
  . exact not_mem_tags_of_ofTag?
  . intro hnew
    unfold ofTag?
    rw [List.find?_eq_none]
    intro kind hmem htag
    rw [beq_iff_eq] at htag
    exact hnew (htag ▸ List.mem_map_of_mem hmem)

theorem register_of_mem (h : a.tag ∈ kinds.tags)
    : ∃ kind, kinds.ofTag? a.tag = some kind
        ∧ kinds.register a.name a.given = .error (.tagTaken a.tag (owner kind)) := by
  obtain ⟨kind, hkind⟩ : ∃ kind, kinds.ofTag? a.tag = some kind := by
    rw [← Option.ne_none_iff_exists', Ne, ofTag?_eq_none_iff, not_not]
    exact h
  refine ⟨kind, hkind, ?_⟩
  unfold Attempt.tag at hkind ⊢
  rw [register, hkind]

theorem register_of_not_mem (h : a.tag ∉ kinds.tags)
    : kinds.register a.name a.given = .ok (kinds ++ [.custom a.name a.tag]) := by
  have hnone := ofTag?_eq_none_iff.2 h
  unfold Attempt.tag at hnone ⊢
  rw [register, hnone]

theorem register_eq_error_iff
    : (∃ fault, kinds.register a.name a.given = .error fault) ↔ a.tag ∈ kinds.tags := by
  constructor
  . rintro ⟨fault, hfault⟩
    by_contra hnew
    rw [register_of_not_mem hnew] at hfault
    contradiction
  . intro hmem
    obtain ⟨kind, -, hfault⟩ := register_of_mem hmem
    exact ⟨_, hfault⟩

theorem attempt_of_mem (h : a.tag ∈ kinds.tags) : kinds.attempt a = kinds := by
  obtain ⟨kind, -, hfault⟩ := register_of_mem h
  rw [attempt, hfault]

theorem attempt_of_not_mem (h : a.tag ∉ kinds.tags)
    : kinds.attempt a = kinds ++ [.custom a.name a.tag] := by
  rw [attempt, register_of_not_mem h]

theorem Registered.attempt (h : kinds.Registered) (a : Attempt) : (kinds.attempt a).Registered := by
  by_cases hmem : a.tag ∈ kinds.tags
  . rw [attempt_of_mem hmem]
    exact h
  . rw [attempt_of_not_mem hmem]
    exact .register h (register_of_not_mem hmem)

theorem Registered.attempts (h : kinds.Registered) (as : List Attempt)
    : (kinds.attempts as).Registered := by
  induction as generalizing kinds with
  | nil => exact h
  | cons a rest ih => exact ih (h.attempt a)

theorem Registered.nodup_tags (h : kinds.Registered) : kinds.tags.Nodup := by
  induction h with
  | start => decide
  | register _ registers ih =>
    obtain ⟨hnone, rfl⟩ := register_eq_ok registers
    unfold tags at ih ⊢
    rw [List.map_append, List.nodup_append]
    refine ⟨ih, by simp, ?_⟩
    rintro tag hmem _ hlast rfl
    rw [List.map_singleton, List.mem_singleton] at hlast
    rw [hlast] at hmem
    exact ofTag?_eq_none_iff.1 hnone hmem

theorem ofTag?_append_of_mem (h : tag ∈ kinds.tags) (more : Kinds)
    : ofTag? (kinds ++ more) tag = kinds.ofTag? tag := by
  cases hkind : kinds.ofTag? tag with
  | none => exact absurd h (ofTag?_eq_none_iff.1 hkind)
  | some kind =>
    unfold ofTag? at hkind ⊢
    rw [List.find?_append, hkind, Option.some_or]

theorem Registered.ofTag?_of_not_new (h : kinds.Registered) (htag : ¬ kinds.NewTag tag)
    : kinds.ofTag? tag = builtIn.ofTag? tag := by
  by_cases hmem : tag ∈ builtIn.tags
  . obtain ⟨more, rfl⟩ := h.exists_append
    exact ofTag?_append_of_mem hmem more
  . rw [ofTag?_eq_none_iff.2 hmem, ofTag?_eq_none_iff]
    exact fun hnew => htag ⟨hnew, hmem⟩

theorem shape_congr (h : kinds.ofTag? tag = kinds'.ofTag? tag)
    : kinds.shape (.text tag) = kinds'.shape (.text tag) := by
  unfold shape
  split
  . rfl
  . rfl
  . next heq =>
    injection heq with heq
    subst heq
    rw [h]
  . next htext => exact absurd rfl (htext tag)

theorem shape_of_no_text {v : Value} (h : ∀ s, v ≠ .text s) : kinds.shape v = kinds'.shape v := by
  cases v with
  | text s => exact absurd rfl (h s)
  | _ => rfl

end Kinds

namespace Value

variable {kinds kinds' : Kinds} {d : Value} {t : Table Value}

/--
Every object that is read on the way when data is read as an element has a tag that is not new.
-/
def AvoidsNewTags (kinds : Kinds) (d : Value) : Prop :=
  ∀ t : Table Value, d.Parses (.object t) → ∀ tag, t.get? (.text "element") = some (.text tag) →
    ¬ kinds.NewTag tag

/--
What holds of data if it holds of the items in its content, and of what stands in its content under
some name, holds of all data.
-/
theorem parts_induction {P : Value → Prop}
    (step : ∀ d,
      (∀ (t : Table Value) items x, d = .object t → t.content = .list items → x ∈ items → P x) →
      (∀ (t fields : Table Value) (name : String) x, d = .object t → t.content = .object fields →
        fields.get? (.text name) = some x → P x) → P d)
    (d : Value) : P d := by
  induction hn : sizeOf d using Nat.strongRecOn generalizing d with
  | ind n ih =>
    subst hn
    apply step d
    . rintro t items x rfl hcontent hx
      have hsmall := sizeOf_content (by simp [hcontent] : t.content ≠ .null)
      have hmem := List.sizeOf_lt_of_mem hx
      rw [hcontent, Value.list.sizeOf_spec] at hsmall
      refine ih _ ?_ x rfl
      rw [Value.object.sizeOf_spec]
      omega
    . rintro t fields name x rfl hcontent hx
      have hsmall := sizeOf_content (by simp [hcontent] : t.content ≠ .null)
      have hmem := sizeOf_get? hx
      rw [hcontent, Value.object.sizeOf_spec] at hsmall
      refine ih _ ?_ x rfl
      rw [Value.object.sizeOf_spec]
      omega

theorem decodeAll_congr {items : List Value}
    (h : ∀ x ∈ items, Value.decode kinds x = Value.decode kinds' x)
    : Value.decodeAll kinds items = Value.decodeAll kinds' items := by
  induction items with
  | nil => rfl
  | cons x xs ih =>
    rw [Value.decodeAll, Value.decodeAll, h x (by simp),
      ih fun y hmem => h y (List.mem_cons_of_mem _ hmem)]

theorem decodeMemberIn_congr
    (hfields : ∀ (fields : Table Value) (name : String) (x : Value), t.content = .object fields →
      fields.get? (.text name) = some x → Value.decode kinds x = Value.decode kinds' x)
    : Value.decodeMemberIn kinds t = Value.decodeMemberIn kinds' t := by
  rw [decodeMemberIn_eq, decodeMemberIn_eq]
  split
  . next fields hcontent =>
    have hkey : Value.decodeKeyIn kinds fields = Value.decodeKeyIn kinds' fields := by
      rw [decodeKeyIn_eq, decodeKeyIn_eq]
      split
      . rfl
      . next x hx => rw [hfields fields "key" x hcontent hx]
    have hvalue : Value.decodeValueIn kinds fields = Value.decodeValueIn kinds' fields := by
      rw [decodeValueIn_eq, decodeValueIn_eq]
      split
      . rfl
      . next hnull =>
        cases hx : Table.get? fields (.text "value") with
        | none => simp [hx] at hnull
        | some x => rw [Option.getD_some, hfields fields "value" x hcontent hx]
    rw [hkey, hvalue]
  . rfl

theorem contentOf_congr
    (hitems : ∀ items, t.content = .list items →
      ∀ x ∈ items, Value.decode kinds x = Value.decode kinds' x)
    (hfields : ∀ (fields : Table Value) (name : String) (x : Value), t.content = .object fields →
      fields.get? (.text name) = some x → Value.decode kinds x = Value.decode kinds' x)
    (shape : Kinds.Shape) : contentOf kinds t shape = contentOf kinds' t shape := by
  cases shape with
  | member => exact decodeMemberIn_congr hfields
  | ref => rfl
  | literal kind => rfl
  | sequence kind =>
    rw [contentOf, contentOf, decodeSequenceIn_eq, decodeSequenceIn_eq]
    split
    . rfl
    . next items hcontent => rw [decodeAll_congr (hitems items hcontent)]
    . rfl
  | reference =>
    rw [contentOf, contentOf, decodeExtensionIn_eq, decodeExtensionIn_eq]
    split
    . next items hcontent => rw [decodeAll_congr (hitems items hcontent)]
    . rfl

/--
Two tables that agree on the tags in some data read it as the same element or fail in the same way.
-/
theorem decode_congr
    (h : ∀ t : Table Value, d.Parses (.object t) → ∀ tag, t.get? (.text "element") = some tag →
      kinds.shape tag = kinds'.shape tag)
    : Value.decode kinds d = Value.decode kinds' d := by
  induction d using parts_induction with
  | step d ihitems ihfields =>
    cases d with
    | object t =>
      rw [decode_object, decode_object]
      split
      . rfl
      . next tag htag =>
        rw [h t (.self _) tag htag]
        congr 1
        funext info
        congr 1
        funext attributes
        congr 1
        funext shape
        congr 1
        apply contentOf_congr
        . intro items hcontent x hx
          exact ihitems t items x rfl hcontent hx fun u hu => h u (.item hcontent hx hu)
        . intro fields name x hcontent hx
          exact ihfields t fields name x rfl hcontent hx fun u hu => h u (.field hcontent hx hu)
    | _ => rfl

theorem decode_of_avoidsNewTags (hkinds : kinds.Registered) (h : d.AvoidsNewTags kinds)
    : Value.decode kinds d = Value.decode Kinds.builtIn d := by
  apply decode_congr
  intro t ht tag htag
  cases tag with
  | text s => exact Kinds.shape_congr (hkinds.ofTag?_of_not_new (h t ht s htag))
  | _ => exact Kinds.shape_of_no_text (by simp)

end Value

namespace Kinds

/--
Whatever has been registered before, an attempt fails exactly if its tag is taken, and leaves the table
as it is then; otherwise it appends a kind under its tag, and every other tag keeps its kind. Data in
which no element has a new tag is read as it is under the built-in kinds, or fails in the same way.
-/
theorem attempts_conservative (as : List Attempt)
    : (∀ a : Attempt,
          ((∃ fault, (builtIn.attempts as).register a.name a.given = .error fault)
            ↔ a.tag ∈ (builtIn.attempts as).tags)
          ∧ (∀ fault, (builtIn.attempts as).register a.name a.given = .error fault →
            fault.category = .value ∧ builtIn.attempts (as ++ [a]) = builtIn.attempts as)
          ∧ ∀ extended, (builtIn.attempts as).register a.name a.given = .ok extended →
            builtIn.attempts (as ++ [a]) = extended
              ∧ extended = builtIn.attempts as ++ [.custom a.name a.tag]
              ∧ extended.tags = (builtIn.attempts as).tags ++ [a.tag] ∧ extended.tags.Nodup
              ∧ ∀ tag ∈ (builtIn.attempts as).tags,
                extended.ofTag? tag = (builtIn.attempts as).ofTag? tag)
        ∧ ∀ d : Value, d.AvoidsNewTags (builtIn.attempts as) →
            Value.decode (builtIn.attempts as) d = Value.decode builtIn d := by
  have hregistered := Registered.start.attempts as
  have hlast : ∀ a, builtIn.attempts (as ++ [a]) = (builtIn.attempts as).attempt a := by
    intro a
    exact List.foldl_append
  refine ⟨fun a => ⟨register_eq_error_iff, ?_, ?_⟩, fun d => d.decode_of_avoidsNewTags hregistered⟩
  . intro fault hfault
    have hmem := register_eq_error_iff.1 ⟨fault, hfault⟩
    obtain ⟨kind, -, hfault'⟩ := register_of_mem hmem
    rw [hfault, Except.error.injEq] at hfault'
    exact ⟨by rw [hfault']; rfl, by rw [hlast, attempt_of_mem hmem]⟩
  . intro extended hextended
    have hnew : a.tag ∉ (builtIn.attempts as).tags := by
      intro hmem
      obtain ⟨fault, hfault⟩ := register_eq_error_iff.2 hmem
      rw [hextended] at hfault
      contradiction
    have happend := register_of_not_mem hnew
    rw [hextended, Except.ok.injEq] at happend
    have hafter := hregistered.attempt a
    rw [attempt_of_not_mem hnew, ← happend] at hafter
    refine ⟨by rw [hlast, attempt_of_not_mem hnew, happend], happend, ?_, hafter.nodup_tags, ?_⟩
    . rw [happend, tags, List.map_append]
      rfl
    . intro tag hmem
      rw [happend]
      exact ofTag?_append_of_mem hmem _

section Samples

/--
A kind with a derived tag, one whose tag is taken, one under a tag of its own, and the first one again.
-/
def dates : List Attempt :=
  [⟨"DateElement", none⟩, ⟨"OtherString", some "string"⟩, ⟨"Moment", some "time"⟩,
    ⟨"DateElement", none⟩]

theorem attempts_dates
    : builtIn.attempts dates = builtIn ++ [.custom "DateElement" "date", .custom "Moment" "time"] := by
  rfl

def plainList : Value :=
  .object [(.text "element", .text "array"), (.text "content", .list [
    .object [(.text "element", .text "string")], .object [(.text "element", .text "User")]])]

theorem avoidsNewTags_leaf {kinds : Kinds} {s : String} (h : ¬ kinds.NewTag s)
    : (Value.object [(.text "element", .text s)]).AvoidsNewTags kinds := by
  intro t ht tag htag
  cases ht with
  | self =>
    injection htag with htag
    injection htag with htag
    exact htag ▸ h
  | item content => contradiction
  | field content => contradiction

theorem avoidsNewTags_plainList : plainList.AvoidsNewTags (builtIn.attempts dates) := by
  intro t ht tag htag
  rw [attempts_dates]
  cases ht with
  | self =>
    injection htag with htag
    injection htag with htag
    exact htag ▸ by decide
  | item content mem parses =>
    injection content with content
    rw [← content] at mem
    simp only [List.mem_cons, List.not_mem_nil, or_false] at mem
    rcases mem with rfl | rfl
    . exact avoidsNewTags_leaf (by decide) t parses tag htag
    . exact avoidsNewTags_leaf (by decide) t parses tag htag
  | field content => contradiction

theorem attempts_conservative_dates
    : (builtIn.attempts dates).tags = builtIn.tags ++ ["date", "time"]
        ∧ (∃ fault, (builtIn.attempts dates).register "TimeElement" none = .error fault)
        ∧ plainList.AvoidsNewTags (builtIn.attempts dates)
        ∧ Value.decode (builtIn.attempts dates) plainList = Value.decode builtIn plainList := by
  obtain ⟨hattempts, hdecode⟩ := attempts_conservative dates
  refine ⟨rfl, ?_, avoidsNewTags_plainList, hdecode plainList avoidsNewTags_plainList⟩
  exact (hattempts ⟨"TimeElement", none⟩).1.2 (by rw [attempts_dates]; decide)

end Samples

end Kinds

end ApiElements
