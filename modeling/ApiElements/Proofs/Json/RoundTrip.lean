import ApiElements.Element.Json
import ApiElements.Proofs.Holds
import ApiElements.Proofs.Json.Fits
import ApiElements.Proofs.Json.Whole

/-!
This module contains the round trip of element trees through JSON texts: what is written for an
element that was read from a text fits the parser again, because writing nests no deeper than the
text did.
-/

namespace ApiElements

open Kinds (Shape)

variable {kinds : Kinds}

def Element.TextKeyed (e : Element) : Prop :=
  ∀ entries, (e.info = .object entries ∨ e.attributes = .object entries) → Table.TextKeyed entries

namespace Json

variable {n : Nat}

def partFields (name : String) (part : Option Value) : List (String × Value) :=
  part.toList.map fun v => (name, v)

theorem mem_partFields {name : String} {part : Option Value} {field : String × Value}
    (h : field ∈ partFields name part) : field.2 ∈ part := by
  obtain ⟨v, hv, rfl⟩ := List.mem_map.1 h
  exact Option.mem_toList.1 hv

theorem partEntry_eq (name : String) (part : Option Value)
    : partEntry name part = Table.ofFields (partFields name part) := by
  simp [partEntry, partFields, Table.ofFields]

theorem fits_encoded {tag : Value} {info attributes content : Option Value} (htag : Fits n tag)
    (hinfo : ∀ v ∈ info, Fits n v) (hattributes : ∀ v ∈ attributes, Fits n v)
    (hcontent : ∀ v ∈ content, Fits n v)
    : Fits (n + 1) (.object (Table.encoded tag info attributes content)) := by
  rw [fits_object]
  refine ⟨n, rfl, ("element", tag) :: (partFields "meta" info ++ partFields "attributes" attributes
    ++ partFields "content" content), ?_, ?_, ?_⟩
  . simp only [Table.encoded, partEntry_eq, Table.ofFields, List.map_cons, List.map_append]
  . cases info with
    | _ => cases attributes with
      | _ => cases content with
        | _ => simp [partFields]
  . intro field hfield
    rcases List.mem_cons.1 hfield with rfl | hfield
    . exact htag
    rcases List.mem_append.1 hfield with hfield | hfield
    . rcases List.mem_append.1 hfield with hfield | hfield
      . exact hinfo _ (mem_partFields hfield)
      . exact hattributes _ (mem_partFields hfield)
    . exact hcontent _ (mem_partFields hfield)

theorem exists_encode_fits {entries info attributes : Table Value} {tag content : Value}
    {shape : Shape} {content' : Option Value} (hentries : entries.Fits (n + 1))
    (heads : entries.Heads kinds tag shape info attributes)
    (htexts : (Element.mk (shape.kindOf tag) (.object info) (.object attributes) content).TextKeyed)
    (hcontent : Element.encodeContent content = .ok content')
    (hfits : ∀ v ∈ content', Fits (n + 1) v)
    : ∃ d, Element.encode (.mk (shape.kindOf tag) (.object info) (.object attributes) content)
          = .ok d
        ∧ Fits (n + 2) d := by
  have hinfo := (hentries.getD (.text "meta")).entriesOrNone heads.info_eq (htexts _ (.inl rfl))
  have hinfodata := (hentries.getD (.text "meta")).data.entriesOrNone heads.info_eq
  obtain ⟨attributes', hattributes, -⟩ :=
    Value.exists_encoded_attributes (hentries.getD _).data heads.attributes_eq
  have hattributesfits := (hentries.getD (.text "attributes")).attributes heads.attributes_eq
    (htexts _ (.inr rfl)) hattributes
  have hencode : Element.encode (.mk (shape.kindOf tag) (.object info) (.object attributes) content)
      = _ := Element.encode_mk hinfodata.encodeEntries hattributes hcontent
  rw [Kinds.tag_of_shape heads.shape_eq] at hencode
  refine ⟨_, hencode, fits_encoded (hentries.get? heads.tag_eq) ?_ ?_ hfits⟩
  . exact fun v => hinfo.part
  . exact fun v => hattributesfits.part

theorem fits_encodedMember {key : Value} {value : Option Value} (hkey : Fits n key)
    (hvalue : ∀ v ∈ value, Fits n v) : Fits (n + 1) (encodedMember key value) := by
  rw [encodedMember, fits_object]
  refine ⟨n, rfl, ("key", key) :: partFields "value" value, ?_, ?_, ?_⟩
  . rw [partEntry_eq]
    rfl
  . cases value with
    | _ => simp [partFields]
  . intro field hfield
    rcases List.mem_cons.1 hfield with rfl | hfield
    . exact hkey
    . exact hvalue _ (mem_partFields hfield)

theorem fits_even {m : Nat} {entries : Table Value} (h : Fits (2 * m) (.object entries))
    : ∃ k, m = k + 1 ∧ entries.Fits (2 * k + 1) := by
  obtain ⟨n, hn, hentries⟩ := fits_object.1 h
  refine ⟨m - 1, by omega, ?_⟩
  have hn : n = 2 * (m - 1) + 1 := by omega
  exact hn ▸ hentries

theorem fits_fields {entries fields : Table Value} (h : entries.Fits (n + 1))
    (hcontent : entries.content = .object fields) : fields.Fits n := by
  have := h.getD (.text "content")
  rw [← Table.content, hcontent, fits_object] at this
  obtain ⟨m, heq, hfields⟩ := this
  injection heq with heq
  exact heq ▸ hfields

/--
An element that was read is written at most as deep as the data that it was read from. Every element
stands an even number of levels deep, so that there is room for the list that an absent content is
written as.
-/
theorem exists_encode_fits_of_reads {d : Value} {e : Element} {m : Nat} (h : d.Reads kinds e)
    (hd : Fits (2 * m) d) (htexts : ∀ x, (Value.element e).Holds x → x.TextKeyed)
    : ∃ d', e.encode = .ok d' ∧ Fits (2 * m) d' := by
  -- With each element, the bound goes down by two: its object is one level, its content another.
  induction h generalizing m with
  | @member entries fields _ _ _ _ keyElement heads content_eq key_eq _ _ _ ih =>
    obtain ⟨k, rfl, hentries⟩ := fits_even hd
    have hfields := fits_fields hentries content_eq
    obtain ⟨key', hkey, hkeyfits⟩ := ih (hfields.get? key_eq) (by
      intro x hx
      exact htexts x (.content (.memberKey hx)))
    have hcontent := Element.encodeContent_member hkey
    apply exists_encode_fits hentries heads (htexts _ (.self _)) hcontent
    simpa using fits_encodedMember hkeyfits (by simp)
  | @memberWithValue entries fields _ _ _ _ _ keyElement valueElement heads content_eq key_eq _ _
    value_eq _ ih ih' =>
    obtain ⟨k, rfl, hentries⟩ := fits_even hd
    have hfields := fits_fields hentries content_eq
    obtain ⟨key', hkey, hkeyfits⟩ := ih (hfields.get? key_eq) (by
      intro x hx
      exact htexts x (.content (.memberKey hx)))
    obtain ⟨value', hvalue, hvaluefits⟩ := ih' (hfields.get? value_eq) (by
      intro x hx
      exact htexts x (.content (.memberValue hx)))
    have hcontent := Element.encodeContent_memberWithValue hkey hvalue
    apply exists_encode_fits hentries heads (htexts _ (.self _)) hcontent
    simpa using fits_encodedMember hkeyfits (by simpa using hvaluefits)
  | @ref _ fields _ _ _ href heads content_eq href_eq =>
    obtain ⟨k, rfl, hentries⟩ := fits_even hd
    have hhref := (fits_fields hentries content_eq).get? href_eq
    have hcontent : Element.encodeContent (.ref href)
        = .ok (some (.object [(.text "href", href)])) := by
      rfl
    apply exists_encode_fits hentries heads (htexts _ (.self _)) hcontent
    have hobject : Fits (2 * k + 1) (.object [(.text "href", href)]) :=
      @Fits.object (2 * k) [("href", href)] (by simp) (by simpa using hhref)
    simpa using hobject
  | @raw entries _ _ _ shape heads takes =>
    obtain ⟨k, rfl, hentries⟩ := fits_even hd
    have hraw : Fits (2 * k + 1) entries.content := hentries.getD _
    obtain ⟨content', hcontent, hgetD⟩ := Value.exists_encodeContent_of_data hraw.data
    apply exists_encode_fits hentries heads (htexts _ (.self _)) hcontent
    intro v hv
    rw [Option.mem_def] at hv
    rw [hv, Option.getD_some] at hgetD
    exact hgetD ▸ hraw
  | empty heads _ =>
    obtain ⟨k, rfl, hentries⟩ := fits_even hd
    have hcontent : Element.encodeContent (.tuple []) = .ok (some (.list [])) := by
      rfl
    apply exists_encode_fits hentries heads (htexts _ (.self _)) hcontent
    have hlist : Fits (2 * k + 1) (.list []) := .list (by simp)
    simpa using hlist
  | @items entries _ _ _ shape items elements heads _ content_eq length_eq _ ih =>
    obtain ⟨k, rfl, hentries⟩ := fits_even hd
    have hlist := hentries.getD (.text "content")
    rw [← Table.content, content_eq, fits_list] at hlist
    obtain ⟨n, hn, hitems⟩ := hlist
    obtain rfl : n = 2 * k := by omega
    obtain ⟨items', hencoded, hfits⟩ := Value.exists_encoded_all (Fits _) length_eq (by
      intro pair hmem
      apply ih pair hmem (hitems _ (List.of_mem_zip hmem).1)
      intro x hx
      exact htexts x (.content (.tuple (List.mem_map_of_mem (List.of_mem_zip hmem).2) hx)))
    have hcontent := Element.encodeContent_items hencoded
    apply exists_encode_fits hentries heads (htexts _ (.self _)) hcontent
    have hlist : Fits (2 * k + 1) (.list items') := .list hfits
    simpa using hlist

end Json

namespace Element

/--
An element that was read from a text without fractions is written as a text under every indentation
by blanks, and that text is read as the same element. Descriptive data and attributes must have
texts for keys, since JSON turns other keys into texts.
-/
theorem exists_jsonText {text : String} {e : Element} {indent : Value}
    (h : ofJsonText kinds text = .ok e) (hwhole : ∀ v, Json.parse text = .ok v → v.Whole)
    (htexts : ∀ x, (Value.element e).Holds x → x.TextKeyed) (hindent : Json.Layout.Indents indent)
    : ∃ text', e.jsonText indent = .ok text' ∧ ofJsonText kinds text' = .ok e := by
  rw [ofJsonText, Outcome.bind_eq_ok] at h
  obtain ⟨d, hparse, h⟩ := h
  have hfits := Json.fits_of_parse hparse (hwhole d hparse)
  split at h
  . next entries =>
    have hreads := Value.reads_of_decode h
    obtain ⟨d', hencode, hreads'⟩ := Value.exists_encode_of_reads hreads hfits.data
    obtain ⟨d'', hencode', hfits'⟩ := Json.exists_encode_fits_of_reads (m := 495) hreads hfits htexts
    obtain rfl : d' = d'' := by
      rw [hencode] at hencode'
      injection hencode'
    obtain ⟨text', hrender, hparse'⟩ := Json.exists_render hfits' hindent
    refine ⟨text', ?_, ?_⟩
    . rw [jsonText, hencode, Outcome.ok_bind, hrender]
    . have hdecode := Value.decode_of_reads hreads'
      rw [ofJsonText, hparse', Outcome.ok_bind]
      cases hreads' with
      | _ => exact hdecode
  . contradiction

def stringText : String :=
  "\x7b\"element\": \"string\"\x7d"

def emptyString : Element :=
  .mk .string (.object []) (.object []) .null

theorem parse_stringText
    : Json.parse stringText = .ok (.object [(.text "element", .text "string")]) := by
  rfl

theorem ofJsonText_stringText : ofJsonText Kinds.builtIn stringText = .ok emptyString := by
  rw [ofJsonText, parse_stringText]
  rfl

theorem whole_of_parse_stringText {v : Value} (h : Json.parse stringText = .ok v) : v.Whole := by
  rw [parse_stringText] at h
  injection h with h
  subst h
  apply Value.Whole.object
  simpa using Value.Whole.text "string"

theorem textKeyed_of_holds_emptyString {x : Element} (h : (Value.element emptyString).Holds x)
    : x.TextKeyed := by
  simp only [Value.holds_element, emptyString, Element.content, Value.not_holds_null,
    or_false] at h
  subst h
  intro entries hentries
  rcases hentries with hentries | hentries
  all_goals
    injection hentries with hentries
    subst hentries
    simp [Table.TextKeyed]

/--
Not every whole number is an indentation: one that is far from zero gives no text, even a negative
one, although negative widths count as zero.
-/
theorem jsonText_of_far_width
    : ofJsonText Kinds.builtIn stringText = .ok emptyString
        ∧ (∀ v, Json.parse stringText = .ok v → v.Whole)
        ∧ (∀ x, (Value.element emptyString).Holds x → x.TextKeyed)
        ∧ emptyString.jsonText (.int (-1000000000000000000000000000000)) = .error .tooWide
        ∧ emptyString.jsonText (.int 1000000000000000000000000000000) = .error .tooWide
        ∧ emptyString.jsonText (.int 1000000000000000000) = .error .tooLarge := by
  have hwhole : ∀ v, Json.parse stringText = .ok v → v.Whole := fun _ => whole_of_parse_stringText
  have htexts : ∀ x, (Value.element emptyString).Holds x → x.TextKeyed :=
    fun _ => textKeyed_of_holds_emptyString
  exact ⟨ofJsonText_stringText, hwhole, htexts, rfl, rfl, rfl⟩

section Samples

/--
An object with a member, some descriptive data and attributes, among them numbers and characters that
JSON texts escape.
-/
def cafeData : Value :=
  .object (Table.ofFields [("element", .text "object"),
    ("meta", .object (Table.ofFields [("id", .text "Café")])),
    ("attributes", .object (Table.ofFields [("typeAttributes", .list [.text "fixed"]),
      ("default", .int (-12))])),
    ("content", .list [.object (Table.ofFields [("element", .text "member"),
      ("content", .object (Table.ofFields [
        ("key", .object (Table.ofFields [("element", .text "string"), ("content", .text "\"\n😀")])),
        ("value", .object (Table.ofFields [("element", .text "number"),
          ("content", .int 450)]))]))])])])

def cafeLines : List String := [
  "\x7b",
  "  \"element\": \"object\",",
  "  \"meta\": \x7b",
  "    \"id\": \"Caf\\u00e9\"",
  "  \x7d,",
  "  \"attributes\": \x7b",
  "    \"typeAttributes\": [",
  "      \"fixed\"",
  "    ],",
  "    \"default\": -12",
  "  \x7d,",
  "  \"content\": [",
  "    \x7b",
  "      \"element\": \"member\",",
  "      \"content\": \x7b",
  "        \"key\": \x7b",
  "          \"element\": \"string\",",
  "          \"content\": \"\\\"\\n\\ud83d\\ude00\"",
  "        \x7d,",
  "        \"value\": \x7b",
  "          \"element\": \"number\",",
  "          \"content\": 450",
  "        \x7d",
  "      \x7d",
  "    \x7d",
  "  ]",
  "\x7d"]

def cafeText : String :=
  String.ofList (['\n'].intercalate (cafeLines.map String.toList))

def cafe : Element :=
  .mk .object (.object [(.text "id", .text "Café")])
    (.object [(.text "typeAttributes", .tuple [.text "fixed"]), (.text "default", .int (-12))])
    (.tuple [.element (.mk .member (.object []) (.object []) (.member
      (.element (.mk .string (.object []) (.object []) (.text "\"\n😀")))
      (.element (.mk .number (.object []) (.object []) (.int 450)))))])

theorem fits_cafeData : Json.Fits 8 cafeData := by
  have hshort : isShort (-12) = true ∧ isShort 450 = true := by
    decide +kernel
  simp [cafeData, Json.fits_ofFields, Json.fits_list, Json.Fits.text, Json.fits_int, hshort]

theorem render_cafeData : Json.render (.int 2) cafeData = .ok cafeText := by
  have hprint : Json.print (.spaces 2) 0 cafeData
      = .ok (['\n'].intercalate (cafeLines.map String.toList)) := by
    decide +kernel
  have hlayout : Json.Layout.ofIndent (.int 2) = .ok (.spaces 2) := by
    rfl
  rw [cafeData] at hprint ⊢
  rw [Json.render, hlayout, Outcome.ok_bind, hprint, Outcome.ok_bind, cafeText]
  simp

theorem parse_cafeText : Json.parse cafeText = .ok cafeData := by
  have hindent : Json.Layout.Indents (.int 2) := .width (by decide) (by decide)
  have hfits : Json.Fits Json.depthLimit cafeData := fits_cafeData.mono (by decide)
  obtain ⟨text, hrender, hparse⟩ := Json.exists_render hfits hindent
  rw [render_cafeData] at hrender
  rw [Except.ok.inj hrender]
  exact hparse

theorem ofJsonText_cafeText : ofJsonText Kinds.builtIn cafeText = .ok cafe := by
  rw [ofJsonText, parse_cafeText]
  rfl

theorem textKeyed_of_holds_cafe {x : Element} (h : (Value.element cafe).Holds x) : x.TextKeyed := by
  simp [cafe, Element.content] at h
  rcases h with rfl | rfl | rfl | rfl
  all_goals
    intro entries hentries
    rcases hentries with hentries | hentries
    all_goals
      injection hentries with hentries
      subst hentries
      simp [Table.TextKeyed]

/--
The text is laid out by two blanks for each level, and so is what is written.
-/
theorem exists_jsonText_cafe
    : ofJsonText Kinds.builtIn cafeText = .ok cafe
        ∧ (∀ v, Json.parse cafeText = .ok v → v.Whole)
        ∧ (∀ x, (Value.element cafe).Holds x → x.TextKeyed)
        ∧ Json.Layout.Indents (.int 2)
        ∧ cafe.jsonText (.int 2) = .ok cafeText
        ∧ ∃ text', cafe.jsonText (.int 2) = .ok text'
            ∧ ofJsonText Kinds.builtIn text' = .ok cafe := by
  have hwhole : ∀ v, Json.parse cafeText = .ok v → v.Whole := by
    intro v hv
    rw [parse_cafeText] at hv
    injection hv with hv
    exact hv ▸ fits_cafeData.whole
  have htexts : ∀ x, (Value.element cafe).Holds x → x.TextKeyed := fun _ => textKeyed_of_holds_cafe
  have hindent : Json.Layout.Indents (.int 2) := .width (by decide) (by decide)
  have hencode : cafe.encode = .ok cafeData := by
    rfl
  have hwritten : cafe.jsonText (.int 2) = .ok cafeText := by
    rw [jsonText, hencode, Outcome.ok_bind]
    exact render_cafeData
  exact ⟨ofJsonText_cafeText, hwhole, htexts, hindent, hwritten,
    exists_jsonText ofJsonText_cafeText hwhole htexts hindent⟩

end Samples

end Element

end ApiElements
