import ApiElements.Proofs.Compile.Circular
import ApiElements.Proofs.Payload.Isolation

/-!
This module contains that a payload whose type leads back to itself is passed over: neither of its
texts can be made, which is logged for each of them, and the rendering goes on.
-/

namespace ApiElements

open Element (Refers LeadsTo)
open Outcome (Caught)

namespace Registry

variable {r : Registry} {n : Nat} {names : Fin (n + 1) → Value} {types : Fin (n + 1) → Element}

/--
Types that are declared under some names and lead from each one to the next, and from the last one to
the first.
-/
structure Cycle (r : Registry) (names : Fin (n + 1) → Value) (types : Fin (n + 1) → Element) :
    Prop where
  declared : ∀ i, r.get? (names i) = .ok (some (types i))
  leads : ∀ i, (types i).LeadsTo (names (i + 1))

theorem Cycle.circular (h : r.Cycle names types) : r.Circular fun name => ∃ i, name = names i := by
  rintro _ ⟨i, rfl⟩
  exact ⟨types i, names (i + 1), h.declared i, h.leads i, i + 1, rfl⟩

end Registry

namespace Payload

variable {r : Registry} {root : Element} {settings : Settings} {fault : Fault}

def failureRecord (target : Target) (root : Element) (fault : Fault) : Log.Record :=
  ⟨.warning, .payloads,
    "Could not render " ++ target.name ++ " for '" ++ root.tag.plain ++ "': " ++ fault.description⟩

theorem exists_reportFailure_eq (hverbose : settings.verbose.truthy = true → Caught root.encode)
    : ∃ details : List Log.Record, (∀ record ∈ details, record.level = .debug)
        ∧ (settings.verbose.truthy = false → details = [])
        ∧ ∀ target fault,
            reportFailure target root fault settings
              = ⟨failureRecord target root fault :: details, .ok ()⟩ := by
  cases hsetting : settings.verbose.truthy with
  | false =>
    refine ⟨[], by simp, fun _ => rfl, ?_⟩
    intro target fault
    rw [reportFailure, hsetting]
    rfl
  | true =>
    obtain ⟨message, hreport⟩ := exists_reportElement_eq (hverbose hsetting)
    refine ⟨[⟨.debug, .payloads, message⟩], by simp, nofun, ?_⟩
    intro target fault
    rw [reportFailure, hsetting, if_pos rfl, hreport]
    rfl

theorem orLog_fail {target : Target} (h : isRenderFault fault = true)
    : orLog target root settings (Logged.fail fault)
        = (reportFailure target root fault settings >>= fun _ => pure none) := by
  have hattempt : (Logged.fail fault : Logged (Option String)).attempt = pure (.error fault) := rfl
  rw [orLog, hattempt, pure_bind]
  dsimp only
  rw [if_pos h]

theorem exists_render_eq (hschema : r.schemaOf root = Logged.fail fault)
    (hexample : r.exampleOf root = Logged.fail fault) (hfault : isRenderFault fault = true)
    (hschemas : settings.schemas.truthy = true) (hexamples : settings.examples.truthy = true)
    (hverbose : settings.verbose.truthy = true → Caught root.encode)
    : ∃ details : List Log.Record, (∀ record ∈ details, record.level = .debug)
        ∧ (settings.verbose.truthy = false → details = [])
        ∧ render r root settings
            = ⟨failureRecord .schema root fault :: details
                ++ failureRecord .body root fault :: details, .ok {}⟩ := by
  obtain ⟨details, hdetails, hsilent, hreport⟩ := exists_reportFailure_eq hverbose
  refine ⟨details, hdetails, hsilent, ?_⟩
  have hschemaText : schemaText r root settings = Logged.fail fault := by
    rw [schemaText, hschema, Logged.fail_bind]
  have hbodyText : bodyText r root settings = Logged.fail fault := by
    rw [bodyText, hexample, Logged.fail_bind]
  have hlogged : ∀ target, orLog target root settings (Logged.fail fault)
      = ⟨failureRecord target root fault :: details, .ok none⟩ := by
    intro target
    rw [orLog_fail hfault, hreport]
    simp [bind, pure]
  simp only [render, hschemas, hexamples, if_true, hschemaText, hbodyText, hlogged]
  simp [bind, pure]

/--
A reference to a type in a cycle has no example and no schema, however deep elements may be nested, as
there is always another element to go into. As a payload it is left without either, with one warning
for each.
-/
theorem render_of_cycle {n : Nat} {names : Fin (n + 1) → Value} {types : Fin (n + 1) → Element}
    {i : Fin (n + 1)} (h : r.Cycle names types) (hroot : root.Refers (names i))
    (hschemas : settings.schemas.truthy = true) (hexamples : settings.examples.truthy = true)
    (hverbose : settings.verbose.truthy = true → Caught root.encode)
    : (∀ depth, (r.exampleWithin depth (.element root)).result = .error .tooDeep
          ∧ (r.schemaWithin depth (.element root)).result = .error .tooDeep)
        ∧ ∃ details : List Log.Record, (∀ record ∈ details, record.level = .debug)
            ∧ (settings.verbose.truthy = false → details = [])
            ∧ render r root settings
                = ⟨failureRecord .schema root .tooDeep :: details
                    ++ failureRecord .body root .tooDeep :: details, .ok {}⟩ := by
  have hexample := h.circular.exampleWithin_eq ⟨i, rfl⟩ (.reference hroot)
  have hschema := h.circular.schemaWithin_eq ⟨i, rfl⟩ (.reference hroot)
  constructor
  . intro depth
    rw [hexample, hschema]
    exact ⟨rfl, rfl⟩
  . exact exists_render_eq (hschema nestingLimit) (hexample nestingLimit) rfl hschemas hexamples
      hverbose

open Registry (plainElement plainMember)

theorem readable_plainElement (kind : Kind) (content : Value)
    : (plainElement kind content).Readable where
  info := ⟨[], rfl, Table.keyed_nil⟩
  attributes := ⟨[], rfl, Table.keyed_nil⟩
  names := .inl rfl

theorem refers_plainElement (name : Value) : (plainElement (.named name) .null).Refers name where
  kind := rfl
  content := rfl
  readable := readable_plainElement _ _

theorem holds_plainMember {p : Element → Prop} {y : Element} (name : String) (h : p y)
    : (plainMember name (.element y)).Holds p where
  kind := rfl
  readable := readable_plainElement _ _
  key := by
    refine ⟨if (Value.text name).truthy then .text name else .text "", rfl, ?_⟩
    split
    . rfl
    . rfl
  value := ⟨y, rfl, h⟩

/--
A person with a home, which is another name for an address, which has the person as a tenant.
-/
def tenancy : Fin 3 → Value × Element
  | 0 => (.text "Person", plainElement .object (.tuple [
      .element (plainMember "name" (.element (plainElement .string .null))),
      .element (plainMember "home" (.element (plainElement (.named (.text "Home")) .null)))]))
  | 1 => (.text "Home", plainElement (.named (.text "Address")) .null)
  | 2 => (.text "Address", plainElement .object (.tuple [
      .element (plainMember "tenant" (.element (plainElement (.named (.text "Person")) .null))),
      .element (plainMember "city" (.element (plainElement .string .null)))]))

def tenants : Registry where
  types := [tenancy 0, tenancy 1, tenancy 2]

theorem cycle_tenants : tenants.Cycle (fun i => (tenancy i).1) (fun i => (tenancy i).2) where
  declared := by
    intro i
    match i with
    | 0 => rfl
    | 1 => rfl
    | 2 => rfl
  leads := by
    have hstring : (plainElement .string .null).Primitive :=
      ⟨.inr (.inr rfl), readable_plainElement _ _⟩
    intro i
    match i with
    | 0 =>
      refine @LeadsTo.object _ _ [plainMember "name" (.element (plainElement .string .null))] [] _ rfl
        (readable_plainElement _ _) rfl ?_ (holds_plainMember "home" (refers_plainElement _))
      rw [List.forall_mem_singleton]
      exact holds_plainMember "name" hstring
    | 1 => exact .reference (refers_plainElement _)
    | 2 =>
      exact @LeadsTo.object _ _ [] [plainMember "city" (.element (plainElement .string .null))] _ rfl
        (readable_plainElement _ _) rfl (by simp) (holds_plainMember "tenant" (refers_plainElement _))

theorem render_of_cycle_tenants
    : tenants.Cycle (fun i => (tenancy i).1) (fun i => (tenancy i).2)
        ∧ (plainElement (.named (.text "Home")) .null).Refers (.text "Home")
        ∧ render tenants (plainElement (.named (.text "Home")) .null) {}
            = ⟨[⟨.warning, .payloads, "Could not render schema for 'Home': <RecursionError>"⟩,
                ⟨.warning, .payloads, "Could not render example for 'Home': <RecursionError>"⟩],
              .ok {}⟩ := by
  have hroot := refers_plainElement (.text "Home")
  obtain ⟨-, details, -, hsilent, hrender⟩ :=
    @render_of_cycle tenants _ {} 2 _ _ 1 cycle_tenants hroot rfl rfl nofun
  rw [hsilent rfl] at hrender
  exact ⟨cycle_tenants, hroot, hrender.trans rfl⟩

end Payload

end ApiElements
