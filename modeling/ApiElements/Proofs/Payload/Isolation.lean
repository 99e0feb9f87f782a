import ApiElements.Proofs.Payload.Visits

/-!
This module contains that the two texts of a payload are made independently of each other: a failure
of one is logged and leaves the other as it is.
-/

namespace ApiElements

open Outcome (Caught FailsAs failsAs_ok failsAs_error failsAs_mapM)
open Payload (isRenderFault)

namespace Json

theorem caught_wholeChars (n : Int) : Caught (wholeChars n) := by
  unfold wholeChars
  split
  . exact failsAs_ok _
  . exact failsAs_error rfl

theorem caught_keyChars (v : Value) : Caught (keyChars v) := by
  cases v with
  | int n => exact caught_wholeChars n
  | _ => first | exact failsAs_ok _ | exact failsAs_error rfl

mutual

theorem caught_print (layout : Layout) (level : Nat) (v : Value) : Caught (print layout level v) := by
  cases v with
  | int n => exact caught_wholeChars n
  | list items => exact caught_printArray layout level items
  | tuple items => exact caught_printArray layout level items
  | object entries =>
    cases entries with
    | nil => exact failsAs_ok _
    | cons entry rest =>
      rw [print]
      apply (caught_printEntries layout (level + 1) (entry :: rest)).bind
      exact fun content _ => failsAs_ok _
  | _ => first | exact failsAs_ok _ | exact failsAs_error rfl
termination_by structural v

theorem caught_printArray (layout : Layout) (level : Nat) (items : List Value)
    : Caught (printArray layout level items) := by
  cases items with
  | nil => exact failsAs_ok _
  | cons x xs =>
    rw [printArray]
    apply (caught_print layout (level + 1) x).bind
    intro first _
    apply (caught_printItems layout (level + 1) xs).bind
    exact fun others _ => failsAs_ok _
termination_by structural items

theorem caught_printItems (layout : Layout) (level : Nat) (items : List Value)
    : Caught (printItems layout level items) := by
  cases items with
  | nil => exact failsAs_ok _
  | cons x xs =>
    rw [printItems]
    apply (caught_print layout level x).bind
    intro first _
    apply (caught_printItems layout level xs).bind
    exact fun others _ => failsAs_ok _
termination_by structural items

theorem caught_printEntries (layout : Layout) (level : Nat) (entries : List (Value × Value))
    : Caught (printEntries layout level entries) := by
  cases entries with
  | nil => exact failsAs_ok _
  | cons entry rest =>
    obtain ⟨k, v⟩ := entry
    rw [printEntries]
    apply (caught_keyChars k).bind
    intro key _
    apply (caught_print layout level v).bind
    intro value _
    apply (caught_printEntries layout level rest).bind
    exact fun others _ => failsAs_ok _
termination_by structural entries

end

theorem caught_ofWidth {n : Int} (hlow : -Layout.widthLimit ≤ n) (hhigh : n < Layout.memoryLimit)
    : Caught (Layout.ofWidth n) := by
  have hlimit : Layout.memoryLimit ≤ Layout.widthLimit := by decide
  unfold Layout.ofWidth
  rw [if_neg (by omega), if_neg (by omega)]
  exact failsAs_ok _

/--
Numbers that an indentation may be given by are widths of memory's size at most, or negative.
-/
def Indents (indent : Value) : Prop :=
  ∀ n, indent = .int n → -Layout.widthLimit ≤ n ∧ n < Layout.memoryLimit

theorem caught_ofIndent {indent : Value} (h : Indents indent) : Caught (Layout.ofIndent indent) := by
  cases indent with
  | int n =>
    obtain ⟨hlow, hhigh⟩ := h n rfl
    exact caught_ofWidth hlow hhigh
  | bool b =>
    cases b with
    | false => exact caught_ofWidth (by decide) (by decide)
    | true => exact caught_ofWidth (by decide) (by decide)
  | _ => first | exact failsAs_ok _ | exact failsAs_error rfl

theorem caught_render {indent : Value} (h : Indents indent) (v : Value)
    : Caught (render indent v) := by
  unfold render
  split
  . exact failsAs_ok _
  . apply (caught_ofIndent h).bind
    intro layout _
    apply (caught_print layout 0 v).bind
    exact fun text _ => failsAs_ok _

end Json

def Element.Decoded (e : Element) : Prop :=
  ∃ kinds d, d.Data ∧ Value.decode kinds d = .ok e

theorem Element.Decoded.formed {e : Element} (h : e.Decoded)
    : (Value.element e).All Element.Formed := by
  obtain ⟨kinds, d, hd, hdecode⟩ := h
  exact Value.formed_of_reads (Value.reads_of_decode hdecode) hd

namespace Payload

variable {r : Registry} {root : Element} {settings : Settings} {target : Target} {rank : Value → Nat}

theorem caught_encode_of_decoded (hroot : root.Decoded) : Caught root.encode := by
  obtain ⟨kinds, d, hd, hdecode⟩ := hroot
  obtain ⟨d', hencode, -⟩ := Value.exists_encode_of_reads (Value.reads_of_decode hdecode) hd
  rw [hencode]
  exact failsAs_ok _

theorem exists_reportElement_eq (hroot : Caught root.encode)
    : ∃ message, reportElement root = Logged.record .debug .payloads message := by
  have hcaught : Caught (root.jsonText logIndent) := by
    apply hroot.bind
    intro d _
    apply Json.caught_render
    intro n hn
    injection hn with hn
    subst hn
    decide
  unfold reportElement
  split
  . exact ⟨_, rfl⟩
  . next fault hfault =>
    rw [if_pos (hcaught fault hfault)]
    exact ⟨_, rfl⟩

theorem reportElement_ok (hroot : root.Decoded) : (reportElement root).result = .ok () := by
  obtain ⟨message, hreport⟩ := exists_reportElement_eq (caught_encode_of_decoded hroot)
  rw [hreport]
  rfl

theorem reportFailure_ok (hroot : root.Decoded) (target : Target) (fault : Fault)
    (settings : Settings) : (reportFailure target root fault settings).result = .ok () := by
  unfold reportFailure
  rw [Logged.result_bind, Logged.result_record, Outcome.ok_bind]
  split
  . exact reportElement_ok hroot
  . rfl

def madeText (text : Logged (Option String)) : Option String :=
  match text.result with
  | .ok text => text
  | .error _ => none

theorem orLog_ok (hroot : root.Decoded) {text : Logged (Option String)} (h : Caught text.result)
    : (orLog target root settings text).result = .ok (madeText text) := by
  unfold orLog madeText
  rw [Logged.result_bind]
  cases htext : text.result with
  | ok made =>
    rw [Logged.attempt, htext]
    rfl
  | error fault =>
    rw [Logged.attempt, htext, Outcome.ok_bind]
    dsimp only
    rw [if_pos (h fault htext), Logged.result_bind, reportFailure_ok hroot]
    rfl

theorem caught_schemaText (hschema : Caught (r.schemaOf root).result)
    (hindent : Json.Indents settings.indent) : Caught (schemaText r root settings).result := by
  unfold schemaText
  rw [Logged.result_bind]
  apply hschema.bind
  intro s _
  rw [Logged.result_map]
  exact (Json.caught_render hindent _).map _

theorem caught_bodyText (hexample : Caught (r.exampleOf root).result)
    (hindent : Json.Indents settings.indent) : Caught (bodyText r root settings).result := by
  unfold bodyText
  rw [Logged.result_bind]
  apply hexample.bind
  intro v _
  split
  . exact failsAs_ok _
  . rw [Logged.result_map]
    exact (Json.caught_render hindent v).map _

/--
Each text that is asked for is the one that its own operation makes.
-/
theorem render_ok (hroot : root.Decoded) (hschema : Caught (r.schemaOf root).result)
    (hexample : Caught (r.exampleOf root).result) (hindent : Json.Indents settings.indent)
    : (render r root settings).result
        =
      .ok {
        body := if settings.examples.truthy then madeText (bodyText r root settings) else none,
        schema := if settings.schemas.truthy then madeText (schemaText r root settings) else none } := by
  have hbody := @orLog_ok root settings .body hroot _ (caught_bodyText hexample hindent)
  have hschemas := @orLog_ok root settings .schema hroot _ (caught_schemaText hschema hindent)
  unfold render
  cases settings.schemas.truthy with
  | true =>
    cases settings.examples.truthy with
    | true =>
      simp only [if_true, Logged.result_bind, hschemas, hbody, Outcome.ok_bind, Logged.pure_result]
    | false =>
      simp only [if_true, Bool.false_eq_true, if_false, Logged.result_bind, hschemas,
        Outcome.ok_bind, Logged.pure_result]
  | false =>
    cases settings.examples.truthy with
    | true =>
      simp only [if_true, Bool.false_eq_true, if_false, Logged.result_bind, hbody, Outcome.ok_bind,
        Logged.pure_result]
    | false =>
      simp only [Bool.false_eq_true, if_false, Logged.result_bind, Outcome.ok_bind,
        Logged.pure_result]

/--
A payload that was read from plain data is rendered if no types include each other in a circle, unless
its compilation meets something that cannot be compiled or its indentation is out of range. Each of its
texts is the one that there would be if the other one was not asked for.
-/
theorem render_isolated (hroot : root.Decoded) (hr : ∀ entry ∈ r.types, entry.2.Decoded)
    (hdescends : Registry.Descends (fun _ => True) rank r)
    (hmet : ∀ e, r.Met root (.whole (.element e)) → e.Compilable)
    (hindent : Json.Indents settings.indent)
    : ∃ rendered, (render r root settings).result = .ok rendered
        ∧ (∃ alone, (render r root { settings with examples := .bool false }).result = .ok alone
            ∧ alone.schema = rendered.schema)
        ∧ ∃ alone, (render r root { settings with schemas := .bool false }).result = .ok alone
            ∧ alone.body = rendered.body := by
  have hformed : r.Formed := fun entry hmem => (hr entry hmem).formed
  have hwhole := whole_of_all hroot.formed
  -- Each text fails as foreseen or not at all, whether or not the other one is asked for.
  have hschema : Caught (r.schemaOf root).result :=
    (Registry.caughtSchemas hformed hdescends hmet nestingLimit).whole root .refl hwhole
  have hexample : Caught (r.exampleOf root).result := by
    apply (Registry.caughtExamples hformed hdescends hmet nestingLimit).whole (.element root) .refl
    rintro _ ⟨⟩
    exact hwhole
  refine ⟨_, render_ok hroot hschema hexample hindent, ?_, ?_⟩
  . exact ⟨_, render_ok hroot hschema hexample hindent, rfl⟩
  . exact ⟨_, render_ok hroot hschema hexample hindent, rfl⟩

section Samples

open Registry (plainElement plainMember textRank descends_of_texts)

def declaredObject (id : String) (content : List Element) : Element :=
  .mk .object (.object [(.text "id", .text id)]) (.object []) (.tuple (content.map .element))

/--
A number whose default has no JSON form, so that it has an example but no schema.
-/
def price : Element :=
  .mk .number (.object [(.text "id", .text "Price")]) (.object [(.text "default", .bytes [])]) .null

/--
An offer includes its terms, which include something that is not declared.
-/
def offers : Registry where
  types := [
    (.text "Offer", declaredObject "Offer" [plainElement .ref (.ref (.text "Terms")),
      plainMember "price" (.element (plainElement (.named (.text "Price")) .null))]),
    (.text "Terms", declaredObject "Terms" [plainElement .ref (.ref (.text "Vendor")),
      plainMember "due" .null]),
    (.text "Price", price)]

def offersRank : Value → Nat :=
  textRank fun name => if name = "Offer" then 2 else if name = "Terms" then 1 else 0

def offer : Element :=
  plainElement (.named (.text "Offer")) .null

theorem descends_offers : offers.Descends (fun _ => True) offersRank := by
  apply descends_of_texts
  . simp [offers, Table.TextKeyed]
  . decide

def objectData (id : String) (content : List Value) : Value :=
  .object [(.text "element", .text "object"), (.text "meta", .object [(.text "id", .text id)]),
    (.text "content", .list content)]

def includeData (name : String) : Value :=
  .object [(.text "element", .text "ref"), (.text "content", .object [(.text "href", .text name)])]

/--
The data of a member of which a key is given, and maybe a value.
-/
def memberData (key : String) (value : List (Value × Value)) : Value :=
  .object [(.text "element", .text "member"), (.text "content", .object (
    (.text "key", .object [(.text "element", .text "string"), (.text "content", .text key)]) :: value))]

def priceData : Value :=
  .object [(.text "element", .text "number"), (.text "meta", .object [(.text "id", .text "Price")]),
    (.text "attributes", .object [(.text "default", .bytes [])])]

theorem decoded_offers : ∀ entry ∈ offers.types, entry.2.Decoded := by
  simp only [offers, List.forall_mem_cons]
  refine ⟨?_, ?_, ?_, by simp⟩
  . refine ⟨Kinds.builtIn, objectData "Offer" [includeData "Terms",
      memberData "price" [(.text "value", .object [(.text "element", .text "Price")])]], ?_, rfl⟩
    simp [objectData, includeData, memberData, Value.data_object, Value.data_list, Table.Data,
      Value.Data.text]
  . refine ⟨Kinds.builtIn, objectData "Terms" [includeData "Vendor", memberData "due" []], ?_, rfl⟩
    simp [objectData, includeData, memberData, Value.data_object, Value.data_list, Table.Data,
      Value.Data.text]
  . refine ⟨Kinds.builtIn, priceData, ?_, rfl⟩
    simp [priceData, Value.data_object, Table.Data, Value.Data.text, Value.Data.bytes]

theorem decoded_offer : offer.Decoded := by
  refine ⟨Kinds.builtIn, .object [(.text "element", .text "Offer")], ?_, rfl⟩
  simp [Value.data_object, Table.Data, Value.Data.text]

theorem compilable_of_met_offer {e : Element} (h : offers.Met offer (.whole (.element e)))
    : e.Compilable := by
  apply compilable_of_kind
  refine (Registry.kinds_of_met (p := fun kind => kind ≠ .enum ∧ kind ≠ .array) ?_ ?_ h).self
  . simp [offers, declaredObject, price, plainElement, plainMember, Value.All, Element.kind,
      Element.content]
  . simp [offer, plainElement, Value.All, Element.kind, Element.content]

/--
The offer has no schema because of its price. Its body is there, with what the terms bring along.
-/
theorem render_isolated_offer
    : offer.Decoded ∧ (∀ entry ∈ offers.types, entry.2.Decoded)
        ∧ offers.Descends (fun _ => True) offersRank
        ∧ (∀ e, offers.Met offer (.whole (.element e)) → e.Compilable)
        ∧ Json.Indents (.int 2)
        ∧ ∃ rendered, (render offers offer {}).result = .ok rendered
            ∧ rendered.schema = none
            ∧ rendered.body = some "\x7b\n  \"due\": null,\n  \"price\": 1\n\x7d"
            ∧ (∃ alone, (render offers offer { examples := .bool false }).result = .ok alone
                ∧ alone.schema = rendered.schema)
            ∧ ∃ alone, (render offers offer { schemas := .bool false }).result = .ok alone
                ∧ alone.body = rendered.body := by
  have hmet : ∀ e, offers.Met offer (.whole (.element e)) → e.Compilable :=
    fun _ => compilable_of_met_offer
  have hindent : Json.Indents (.int 2) := by
    rintro _ ⟨⟩
    decide
  have hmade : (render offers offer {}).result
      = .ok { body := some "\x7b\n  \"due\": null,\n  \"price\": 1\n\x7d" } := by
    decide +kernel
  obtain ⟨rendered, hrendered, hschema, hbody⟩ :=
    @render_isolated _ _ {} _ decoded_offer decoded_offers descends_offers hmet hindent
  have heq := hmade.symm.trans hrendered
  injection heq with heq
  subst heq
  exact ⟨decoded_offer, decoded_offers, descends_offers, hmet, hindent, _, hrendered, rfl, rfl, hschema,
    hbody⟩

end Samples

end Payload

end ApiElements
