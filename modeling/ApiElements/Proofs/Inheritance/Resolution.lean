import ApiElements.Proofs.Compile.Depth
import ApiElements.Proofs.Compile.Finish

/-!
This module contains that it does not matter to a schema how far its reference is resolved before it
is compiled. Every element on the way says what is said before it, so that nothing is left to be done
by the references to the schema of the element that they come to.
-/

namespace ApiElements

open Outcome (Shallow)

namespace Registry

/--
Resolving elements again and again, which passes some references, comes to a last element.
-/
inductive Resolution (r : Registry) : Element → List Element → Element → Prop where
  | here (e : Element) : Resolution r e [] e
  | step {e merged last : Element} {refs : List Element}
    (resolved : (r.resolve e).result = .ok (some merged)) (rest : Resolution r merged refs last)
    : Resolution r e (e :: refs) last

section Step

variable {r : Registry} {declared e merged : Element} {name : Value} {depth : Nat} {s : Schema}

theorem exists_of_resolve (h : (r.resolve e).result = .ok (some merged))
    : r.resolve e = pure (some merged)
        ∧ ∃ name declared, e.kind = .named name ∧ r.types.get? name = some declared
            ∧ declared.extendBy e = .ok merged := by
  cases hkind : e.kind with
  | named name =>
    obtain ⟨hhashable, ⟨-, hnone⟩ | ⟨declared, merged', hget, hmerged, hfound⟩⟩ :=
      resolve_eq_ok r hkind h
    . contradiction
    . rw [Option.some.injEq] at hfound
      subst hfound
      have hdeclared : r.get? name = .ok (some declared) := by
        rw [get?, Value.asKey_eq_ok.2 ⟨hhashable, rfl⟩, Outcome.ok_bind, hget]
      exact ⟨resolve_eq_pure r hkind hdeclared hmerged, name, declared, rfl, hget, hmerged⟩
  | _ =>
    rw [resolve, Element.typeName, hkind] at h
    contradiction

/--
A reference has nothing to add to the schema of the element that it is resolved to.
-/
theorem schemaWithin_resolve (h : (r.resolve e).result = .ok (some merged))
    (hless : e.SaysNoMore merged) (depth : Nat)
    : r.schemaWithin (depth + 1) (.element e) = r.schemaWithin depth (.element merged) := by
  obtain ⟨hresolve, name, -, hkind, -⟩ := exists_of_resolve h
  rw [schemaWithin_element, schemaOfKind, hkind]
  dsimp only
  rw [hresolve, pure_bind]
  dsimp only
  cases depth with
  | zero => rfl
  | succ depth =>
    -- What the resolved element has done to its own schema is done by the reference once more.
    rw [schemaWithin_element, bind_assoc]
    congr 1
    funext own
    cases hown : own.attribute merged with
    | error fault => rfl
    | ok s =>
      rw [Logged.liftM_ok, pure_bind,
        Schema.attribute_of_saysNoMore (Schema.attribute_attribute hown) hless, Logged.liftM_ok]

theorem attribute_of_schemaWithin (h : (r.schemaWithin depth (.element e)).result = .ok s)
    : s.attribute e = .ok s := by
  cases depth with
  | zero => contradiction
  | succ depth =>
    rw [schemaWithin_element, Logged.result_bind, Outcome.bind_eq_ok] at h
    obtain ⟨own, -, hown⟩ := h
    exact Schema.attribute_attribute hown

end Step

section Chain

variable {r : Registry} {e merged root last : Element} {refs : List Element} {depth : Nat} {s : Schema}
variable (hr : ∀ entry ∈ r.types, entry.2.KeyedParts)

include hr

theorem keyedParts_of_resolve (he : e.KeyedParts) (h : (r.resolve e).result = .ok (some merged))
    : merged.KeyedParts ∧ e.SaysNoMore merged := by
  obtain ⟨-, name, declared, -, hget, hmerged⟩ := exists_of_resolve h
  obtain ⟨key, hmem, -⟩ := Table.mem_of_get? hget
  have hdeclared := hr _ hmem
  exact ⟨hdeclared.extendBy he hmerged, hdeclared.saysNoMore_override he hmerged⟩

theorem Resolution.schemaWithin_add (h : r.Resolution root refs last) (hroot : root.KeyedParts)
    (depth : Nat)
    : r.schemaWithin (depth + refs.length) (.element root)
        =
      r.schemaWithin depth (.element last) := by
  induction h with
  | here e => rfl
  | step resolved _ ih =>
    obtain ⟨hmerged, hless⟩ := keyedParts_of_resolve hr hroot resolved
    rw [List.length_cons, ← Nat.add_assoc, schemaWithin_resolve resolved hless, ih hmerged]

theorem Resolution.schemaWithin_eq (h : r.Resolution root refs last) (hroot : root.KeyedParts)
    (hshallow : Shallow (r.schemaWithin depth (.element root)).result)
    : r.schemaWithin depth (.element root) = r.schemaWithin depth (.element last) := by
  rw [← schemaWithin_eq_of_le (Nat.le_add_right depth refs.length) hshallow,
    h.schemaWithin_add hr hroot]

theorem Resolution.forall_schemaWithin (h : r.Resolution root refs last) (hroot : root.KeyedParts)
    (hs : (r.schemaWithin depth (.element root)).result = .ok s)
    : ∀ e ∈ refs ++ [last], (r.schemaWithin depth (.element e)).result = .ok s := by
  induction h with
  | here e =>
    rw [List.nil_append, List.forall_mem_singleton]
    exact hs
  | step resolved _ ih =>
    obtain ⟨hmerged, -⟩ := keyedParts_of_resolve hr hroot resolved
    have hshallow := hs ▸ Outcome.shallow_ok s
    have hstep := (Resolution.step resolved (.here _)).schemaWithin_eq hr hroot hshallow
    rw [List.cons_append, List.forall_mem_cons]
    refine ⟨hs, ih hmerged ?_⟩
    rw [← hstep]
    exact hs

/--
The schema of a reference is the schema of any element that resolving it comes to, where every
reference on the way takes one level of nesting. What is found for the last element by its kind and
content is described and opened to null once, by that element, and for no reference on the way a
change is left to be made to the document.
-/
theorem schemaWithin_of_resolution (h : r.Resolution root refs last) (hroot : root.KeyedParts)
    : (∀ depth,
        r.schemaWithin (depth + refs.length) (.element root) = r.schemaWithin depth (.element last))
      ∧ ∀ depth, Shallow (r.schemaWithin depth (.element root)).result →
          r.schemaWithin depth (.element root) = r.schemaWithin depth (.element last)
            ∧ ∀ s, (r.schemaWithin depth (.element root)).result = .ok s →
                (∃ n own, (r.schemaOfKind n last).result = .ok own
                  ∧ last.finish own.toValue = .ok s.toValue)
                ∧ ∀ e ∈ refs ++ [last], e.finish s.toValue = .ok s.toValue := by
  refine ⟨h.schemaWithin_add hr hroot, ?_⟩
  intro depth hshallow
  refine ⟨h.schemaWithin_eq hr hroot hshallow, ?_⟩
  intro s hs
  have hall := h.forall_schemaWithin hr hroot hs
  constructor
  . have hlast := hall last (by simp)
    cases depth with
    | zero => contradiction
    | succ depth =>
      rw [schemaWithin_element, Logged.result_bind, Outcome.bind_eq_ok] at hlast
      obtain ⟨own, hown, hattribute⟩ := hlast
      refine ⟨depth, own, hown, ?_⟩
      rw [Logged.result_liftM] at hattribute
      rw [Schema.finish_toValue, hattribute, Outcome.map_ok]
  . intro e hmem
    rw [Schema.finish_toValue, attribute_of_schemaWithin (hall e hmem), Outcome.map_ok]

end Chain

def described (kind : Kind) (description : String) : Element :=
  .mk kind (.object [(.text "description", .text description)])
    (.object [(.text "typeAttributes", .tuple [.text "nullable"])]) .null

theorem keyedParts_described (kind : Kind) (description : String)
    : (described kind description).KeyedParts where
  info := by
    rintro _ ⟨⟩
    exact ⟨by simp [Value.hashable], by simp⟩
  attributes := by
    rintro _ ⟨⟩
    exact ⟨by simp [Value.hashable], by simp⟩

def callings : Registry where
  types := [
    (.text "Name", described .string "How someone is called"),
    (.text "Nickname", described (.named (.text "Name")) "How friends call someone")]

def signature : Element :=
  described (.named (.text "Nickname")) "How someone signs"

theorem schemaWithin_of_resolution_signature
    : ∃ s, (callings.schemaOf signature).result = .ok s
        ∧ s = { type := some .string, nullable := true, description := some (.text "How someone signs") }
        ∧ callings.schemaOf signature = callings.schemaOf (described .string "How someone signs")
        ∧ signature.finish s.toValue = .ok s.toValue := by
  have hresolution : callings.Resolution signature
      [signature, described (.named (.text "Name")) "How someone signs"]
      (described .string "How someone signs") :=
    .step rfl (.step rfl (.here _))
  have htypes : ∀ entry ∈ callings.types, entry.2.KeyedParts := by
    simp only [callings, List.forall_mem_cons]
    exact ⟨keyedParts_described _ _, keyedParts_described _ _, by simp⟩
  obtain ⟨s, hs, heq⟩ : ∃ s, (callings.schemaOf signature).result = .ok s
      ∧ s = { type := some .string, nullable := true, description := some (.text "How someone signs") } :=
    ⟨_, rfl, rfl⟩
  obtain ⟨-, hall⟩ := schemaWithin_of_resolution htypes hresolution (keyedParts_described _ _)
  obtain ⟨hsame, hfinished⟩ := hall nestingLimit (hs ▸ Outcome.shallow_ok s)
  exact ⟨s, hs, heq, hsame, (hfinished s hs).2 signature (by simp)⟩

end Registry

end ApiElements
