import ApiElements.Proofs.Settings.Mapping
import ApiElements.Proofs.Settings.Path
import ApiElements.Proofs.Value.Access
import ApiElements.Proofs.Value.Sorted
import ApiElements.Settings.Load

/-!
This module contains which settings are in force once they are loaded: a variable of the environment
that fixes one comes before the file, and the file comes before the defaults. A file with names that no
setting has is refused with all of these names in ascending order. All of this is so for every reader
of files that gives no key of a mapping twice.
-/

namespace ApiElements

namespace Setting

variable {setting : Setting} {name : String}

theorem named?_name (setting : Setting) : named? (.text setting.name) = some setting := by
  cases setting with
  | _ => rfl

theorem named?_eq_some_iff : named? (.text name) = some setting ↔ setting.name = name := by
  constructor
  . intro h
    have hsame := List.find?_some h
    rw [Value.text_same_text, beq_iff_eq] at hsame
    exact hsame
  . rintro rfl
    exact named?_name setting

theorem name_inj {other : Setting} : setting.name = other.name ↔ setting = other := by
  rw [← named?_eq_some_iff, named?_name, Option.some.injEq, eq_comm]

theorem named?_eq_none_iff : named? (.text name) = none ↔ ∀ setting : Setting, setting.name ≠ name := by
  simp only [Option.eq_none_iff_forall_ne_some, ne_eq, named?_eq_some_iff]

end Setting

namespace Table

variable {α : Type} {t : Table α} {fields : List (String × α)}

theorem nodup_of_keyed (h : (ofFields fields).Keyed) : (fields.map (·.1)).Nodup := by
  have hdistinct := h.distinct
  unfold ofFields at hdistinct
  rw [List.pairwise_map] at hdistinct
  rw [List.Nodup, List.pairwise_map]
  refine hdistinct.imp fun hsame heq => ?_
  rw [heq, Value.text_same_text, beq_self_eq_true] at hsame
  contradiction

end Table

/--
What is relied on of a reader: a mapping that it gives has every key once.
-/
structure FileReader.Lawful (read : FileReader) : Prop where
  keyed : ∀ (text : List Char) (t : Table Value), read text = .ok (.object t) → t.Keyed

theorem lawful_parse : FileReader.Lawful Yaml.parse where
  keyed := fun _ _ => Yaml.keyed_of_parse

namespace Settings

variable {s s' : Settings} {setting other : Setting} {v : Value} {t environment : Table Value}
variable {path : String} {file : Option String}

section Update

theorem get_set (s : Settings) (setting other : Setting) (v : Value)
    : (s.set setting v).get other = if other = setting then v else s.get other := by
  cases setting with
  | _ => cases other with
    | _ => rfl

theorem update_cons (s : Settings) (setting : Setting) (v : Value) (rest : Table Value)
    : s.update ((.text setting.name, v) :: rest) = (s.set setting v).update rest := by
  rw [update, List.foldlM_cons]
  dsimp only
  rw [Setting.named?_name]
  rfl

/--
Under names of settings the entries of a table take the place of what was there.
-/
theorem exists_update (ht : t.Keyed)
    (hnames : ∀ entry ∈ t, ∃ setting : Setting, entry.1 = .text setting.name) (s : Settings)
    : ∃ s', s.update t = .ok s'
        ∧ ∀ setting, s'.get setting = (t.get? (.text setting.name)).getD (s.get setting) := by
  induction t generalizing s with
  | nil => exact ⟨s, rfl, fun _ => rfl⟩
  | cons entry rest ih =>
    obtain ⟨name, v⟩ := entry
    rw [List.forall_mem_cons] at hnames
    obtain ⟨⟨own, rfl⟩, hrest⟩ := hnames
    obtain ⟨s', hs', hget⟩ := ih ht.tail hrest (s.set own v)
    refine ⟨s', ?_, fun setting => ?_⟩
    . rw [update_cons, hs']
    . rw [hget, get_set, Table.get?_cons, Value.text_same_text]
      by_cases heq : setting = own
      . -- No later entry has this name again.
        have hapart := Table.get?_eq_none_iff.2 (List.pairwise_cons.1 ht.distinct).1
        rw [if_pos heq, heq, hapart, beq_self_eq_true, if_pos rfl]
        rfl
      . have hne : (setting.name == own.name) = false := by
          rw [beq_eq_false_iff_ne, ne_eq, Setting.name_inj]
          exact heq
        rw [if_neg heq, hne, if_neg Bool.false_ne_true]

end Update

section Unknown

/--
Some names are all those in a table that no setting has, in strictly ascending order.
-/
structure Strangers (t : Table Value) (names : List String) : Prop where
  ascending : names.Pairwise (· < ·)
  mem_iff : ∀ name, name ∈ names
    ↔ (∃ v, (Value.text name, v) ∈ t) ∧ ∀ setting : Setting, setting.name ≠ name

theorem Strangers.unique {names names' : List String} (h : Strangers t names)
    (h' : Strangers t names') : names = names' := by
  have hperm : names.Perm names' := by
    rw [List.perm_ext_iff_of_nodup (h.ascending.imp ne_of_lt) (h'.ascending.imp ne_of_lt)]
    exact fun name => (h.mem_iff name).trans (h'.mem_iff name).symm
  refine hperm.eq_of_pairwise (fun _ _ _ _ hlt hgt => ?_) h.ascending h'.ascending
  exact absurd hgt (lt_asymm hlt)

theorem Strangers.exists_setting (h : Strangers t []) (htexts : t.TextKeyed)
    : ∀ entry ∈ t, ∃ setting : Setting, entry.1 = .text setting.name := by
  intro entry hentry
  obtain ⟨name, hname⟩ := htexts entry hentry
  by_contra hno
  have hmem : name ∈ [] := by
    refine (h.mem_iff name).2 ⟨⟨entry.2, hname ▸ hentry⟩, fun setting heq => hno ?_⟩
    exact ⟨setting, heq ▸ hname⟩
  contradiction

theorem distinct_text {names : List String} (h : names.Nodup)
    : Value.distinct (names.map .text) = names.map .text := by
  have hfields : Table.keys (Table.ofFields (names.map fun name => (name, ()))) = names.map .text := by
    simp [Table.keys, Table.ofFields, Function.comp_def]
  rw [← hfields, ← Table.keys_ofList, Table.ofList_ofFields]
  simpa [Function.comp_def] using h

theorem exists_unknownNames (ht : t.Keyed) (htexts : t.TextKeyed)
    : ∃ names, unknownNames (.object t) = .ok (names.map .text) ∧ Strangers t names := by
  obtain ⟨fields, rfl⟩ := htexts.exists_ofFields
  have hnodup := Table.nodup_of_keyed ht
  have hkeys : Table.keys (Table.ofFields fields) = (fields.map (·.1)).map .text := by
    simp [Table.keys, Table.ofFields]
  let unknown := (fields.map (·.1)).filter fun name => (Setting.named? (.text name)).isNone
  have hunknown : unknown.Nodup := hnodup.filter _
  obtain ⟨names, hsort, hmem, hascending⟩ := Value.exists_sort_of_nodup hunknown
  have hhashable : ∀ key ∈ (fields.map (·.1)).map Value.text, key.hashable = true := by
    intro key hkey
    obtain ⟨name, -, rfl⟩ := List.mem_map.1 hkey
    rfl
  refine ⟨names, ?_, hascending, fun name => ?_⟩
  . rw [unknownNames, Value.items, Outcome.ok_bind, hkeys,
      Value.mapM_asKey_eq_ok.2 ⟨hhashable, rfl⟩, Outcome.ok_bind, distinct_text hnodup,
      List.filter_map]
    exact hsort
  . rw [hmem, List.mem_filter, Option.isNone_iff_eq_none, Setting.named?_eq_none_iff]
    simp [Table.ofFields]

theorem displayItems_texts (names : List String)
    : Value.displayItems (names.map .text) = names.map quoted := by
  induction names with
  | nil => rfl
  | cons name rest ih => exact congrArg (quoted name :: ·) ih

theorem display_texts (names : List String)
    : (Value.list (names.map .text)).display = "[" ++ commaSeparated (names.map quoted) ++ "]" := by
  rw [← displayItems_texts]
  rfl

theorem areShownNames_text (names : List String) : areShownNames (names.map .text) = true := by
  induction names with
  | nil => rfl
  | cons name rest ih => exact ih

end Unknown

section OfValue

theorem ofValue_absent (path : String) (h : v.truthy = false) : ofValue path v = .ok {} := by
  rw [ofValue, h]
  rfl

/--
A mapping without strangers takes the place of the defaults, and one with strangers is refused.
-/
theorem ofValue_object {names : List String}
    (hunknown : unknownNames (.object t) = .ok (names.map .text)) (hnames : Strangers t names)
    : ofValue path (.object t)
        = if names = [] then update {} t
          else .error (.unknownSettings (shownPath path)
            ("[" ++ commaSeparated (names.map quoted) ++ "]")) := by
  cases t with
  | nil =>
    have hempty : names = [] := by
      rw [List.eq_nil_iff_forall_not_mem]
      intro name hname
      obtain ⟨⟨v, hv⟩, -⟩ := (hnames.mem_iff name).1 hname
      contradiction
    rw [if_pos hempty]
    rfl
  | cons entry rest =>
    have htruthy : (Value.object (entry :: rest)).truthy = true := rfl
    rw [ofValue, if_pos htruthy, hunknown, Outcome.ok_bind, Value.entriesOrNone_object,
      Outcome.ok_bind, areShownNames_text, if_pos rfl, display_texts]
    cases names with
    | nil => rfl
    | cons name names => rfl

end OfValue

section Environment

/--
A variable counts as given if it holds something, whatever that is.
-/
def isGiven (environment : Table Value) (name : String) : Bool :=
  ((environment.get? (.text name)).getD .null).truthy

theorem isGiven_iff {name : String} (h : ∀ entry ∈ environment, ∃ text : String, entry.2 = .text text)
    : isGiven environment name = true
        ↔ ∃ text, environment.get? (.text name) = some (.text text) ∧ text ≠ "" := by
  unfold isGiven
  cases hget : environment.get? (.text name) with
  | none => simp [Value.truthy]
  | some v =>
    obtain ⟨key, hmem, -⟩ := Table.mem_of_get? hget
    obtain ⟨text, rfl⟩ := h _ hmem
    simp [Value.truthy]

def forced (environment : Table Value) : Setting → Option Value
  | .examples => if isGiven environment "DRAFTER_EXAMPLES" then some (.bool false) else none
  | .benchmark => if isGiven environment "BENCHMARK" then some (.bool true) else none
  | .verbose => if isGiven environment "ELEMENTDSL_VERBOSE" then some (.bool true) else none
  | _ => none

theorem withEnvironment_eq (s : Settings) (environment : Table Value)
    : s.withEnvironment environment
        = flags.foldl (fun s (name, setting, v) =>
            if isGiven environment name then s.set setting (.bool v) else s) s := by
  rfl

theorem get_ite_set {c : Prop} [Decidable c]
    : (if c then s.set setting v else s).get other
        = if other = setting then if c then v else s.get other else s.get other := by
  by_cases hc : c
  . simp [hc, get_set]
  . simp [hc]

theorem get_withEnvironment (s : Settings) (environment : Table Value) (setting : Setting)
    : (s.withEnvironment environment).get setting
        = (forced environment setting).getD (s.get setting) := by
  simp only [withEnvironment_eq, flags, List.foldl_cons, List.foldl_nil, get_ite_set]
  cases setting with
  | examples | benchmark | verbose =>
    simp only [forced, reduceCtorEq, if_true, if_false]
    split
    . rfl
    . rfl
  | _ => rfl

/--
Environments that agree on which of the variables that count are given have the same effect.
-/
theorem withEnvironment_congr {environment' : Table Value} (s : Settings)
    (h : ∀ name ∈ ["DRAFTER_EXAMPLES", "BENCHMARK", "ELEMENTDSL_VERBOSE"],
      isGiven environment name = isGiven environment' name)
    : s.withEnvironment environment = s.withEnvironment environment' := by
  simp only [List.forall_mem_cons] at h
  obtain ⟨hexamples, hbenchmark, hverbose, -⟩ := h
  simp only [withEnvironment_eq, flags, List.foldl_cons, List.foldl_nil, hexamples, hbenchmark,
    hverbose]

end Environment

section Load

variable {read : FileReader}

/--
The entries that a settings file sets: none if it is missing or holds nothing, and those of the mapping
that it holds otherwise.
-/
inductive Sets (read : FileReader) : Option String → Table Value → Prop where
  | missing : Sets read none []
  | absent {text : String} {v : Value} (reads : read (normalizeBreaks text.toList) = .ok v)
    (empty : v.truthy = false) : Sets read (some text) []
  | mapping {text : String} {t : Table Value}
    (reads : read (normalizeBreaks text.toList) = .ok (.object t)) (texts : t.TextKeyed)
    : Sets read (some text) t

theorem Sets.keyed (hread : read.Lawful) (h : Sets read file t) : t.Keyed := by
  cases h with
  | missing => exact Table.keyed_nil
  | absent reads empty => exact Table.keyed_nil
  | mapping reads texts => exact hread.keyed _ _ reads

theorem Sets.textKeyed (h : Sets read file t) : t.TextKeyed := by
  cases h with
  | missing => simp [Table.TextKeyed]
  | absent reads empty => simp [Table.TextKeyed]
  | mapping reads texts => exact texts

def wholeFields? : Table Value → Option (List (String × Int))
  | [] => some []
  | (.text name, .int n) :: rest => (wholeFields? rest).map ((name, n) :: ·)
  | _ => none

def wholeMapping? : Value → Option (List (String × Int))
  | .object t => wholeFields? t
  | _ => none

theorem eq_of_wholeFields {fields : List (String × Int)} (h : wholeFields? t = some fields)
    : t = Table.ofFields (fields.map fun field => (field.1, .int field.2)) := by
  fun_induction wholeFields? t generalizing fields with
  | case1 =>
    injection h with h
    exact h ▸ rfl
  | case2 name n rest ih =>
    rw [Option.map_eq_some_iff] at h
    obtain ⟨others, hothers, rfl⟩ := h
    exact congrArg ((Value.text name, Value.int n) :: ·) (ih hothers)
  | case3 => contradiction

theorem sets_of_wholeMapping (text : String) (fields : List (String × Int))
    (h : (Yaml.parse (normalizeBreaks text.toList)).toOption.bind wholeMapping? = some fields)
    : Sets Yaml.parse (some text)
        (Table.ofFields (fields.map fun field => (field.1, .int field.2))) := by
  cases hparse : Yaml.parse (normalizeBreaks text.toList) with
  | error fault =>
    rw [hparse] at h
    contradiction
  | ok v =>
    replace h : wholeMapping? v = some fields := by
      rw [hparse] at h
      exact h
    unfold wholeMapping? at h
    split at h
    . rw [eq_of_wholeFields h] at hparse
      exact .mapping hparse (Table.textKeyed_ofFields _)
    . contradiction

theorem load_text {text : String} (hpath : Leads path)
    (h : read (normalizeBreaks text.toList) = .ok v) (environment : Table Value)
    : loadWith read path (some text) environment
        = (do .ok ((← ofValue path v).withEnvironment environment)) := by
  rw [loadWith]
  dsimp only
  rw [hpath.whole, if_neg Bool.false_ne_true, hpath.checkPath, Outcome.ok_bind, ofText, h,
    Outcome.ok_bind]

theorem Sets.load_eq (h : Sets read file t) (hpath : Leads path) (environment : Table Value)
    : loadWith read path file environment
        = (do .ok ((← ofValue path (.object t)).withEnvironment environment)) := by
  cases h with
  | missing =>
    rw [loadWith]
    dsimp only
    rw [hpath.whole, if_neg Bool.false_ne_true, hpath.checkPath]
    rfl
  | absent reads empty =>
    rw [load_text hpath reads, ofValue_absent path empty]
    rfl
  | mapping reads texts => rw [load_text hpath reads]

/--
What is loaded: if the file sets anything that is no setting, it is refused with exactly these names in
ascending order. Otherwise a setting is what a variable of the environment fixes it to, else what the
file sets it to, whatever that is, and else its default. No other variables have an influence.
-/
theorem load_precedence (hread : read.Lawful) (hpath : Leads path) (hfile : Sets read file t)
    : ∃ strangers, Strangers t strangers
        ∧ ∀ environment,
          (strangers ≠ [] → ∃ fault,
            loadWith read path file environment = .error fault
              ∧ fault.category = .value
              ∧ fault.message? = some ("Unknown settings in " ++ shownPath path ++ ": "
                  ++ ("[" ++ commaSeparated (strangers.map quoted) ++ "]")))
          ∧ (strangers = [] → ∃ s,
            loadWith read path file environment = .ok s
              ∧ ∀ setting, s.get setting
                  = ((forced environment setting).or (t.get? (.text setting.name))).getD
                      (({} : Settings).get setting))
          ∧ ∀ environment', (∀ name ∈ ["DRAFTER_EXAMPLES", "BENCHMARK", "ELEMENTDSL_VERBOSE"],
              isGiven environment name = isGiven environment' name)
            → loadWith read path file environment = loadWith read path file environment' := by
  obtain ⟨strangers, hunknown, hstrangers⟩ := exists_unknownNames (hfile.keyed hread) hfile.textKeyed
  refine ⟨strangers, hstrangers, fun environment => ⟨fun hsome => ?_, fun hnone => ?_, ?_⟩⟩
  . refine ⟨.unknownSettings (shownPath path) ("[" ++ commaSeparated (strangers.map quoted) ++ "]"),
      ?_, rfl, ?_⟩
    . rw [hfile.load_eq hpath, ofValue_object hunknown hstrangers, if_neg hsome, Outcome.error_bind]
    . rw [Fault.message?]
  . have hnames := Strangers.exists_setting (hnone ▸ hstrangers) hfile.textKeyed
    obtain ⟨s, hs, hget⟩ := exists_update (hfile.keyed hread) hnames {}
    refine ⟨s.withEnvironment environment, ?_, fun setting => ?_⟩
    . rw [hfile.load_eq hpath, ofValue_object hunknown hstrangers, if_pos hnone, hs, Outcome.ok_bind]
    . rw [get_withEnvironment, hget, Option.getD_or]
  . intro environment' hagree
    rw [hfile.load_eq hpath, hfile.load_eq hpath]
    simp only [withEnvironment_congr _ hagree]

theorem load_precedence_zero
    : FileReader.Lawful Yaml.parse
        ∧ FileName defaultPath
        ∧ (∃ s, load defaultPath (some "indent: 0\nexamples: 1\n")
            [(.text "HOME", .text "/"), (.text "DRAFTER_EXAMPLES", .text "1"), (.text "BENCHMARK", .text "")]
              = .ok s
            ∧ s.get .indent = .int 0
            ∧ s.get .examples = .bool false
            ∧ s.get .benchmark = .bool false)
        ∧ ∃ fault, load defaultPath (some "zoom: 1\nindent: 0\nangle: 2\n") [] = .error fault
            ∧ fault.message? = some "Unknown settings in elementdsl.yaml: ['angle', 'zoom']" := by
  have hname : FileName defaultPath :=
    ⟨by decide +kernel, by decide +kernel, by decide +kernel, by decide, by decide, by decide⟩
  refine ⟨lawful_parse, hname, ?_, ?_⟩
  . have hfile := sets_of_wholeMapping "indent: 0\nexamples: 1\n" [("indent", 0), ("examples", 1)]
      (by decide +kernel)
    obtain ⟨strangers, hstrangers, hload⟩ := load_precedence lawful_parse hname.leads hfile
    -- Both names in the file are names of settings.
    have hnone : strangers = [] := by
      rw [List.eq_nil_iff_forall_not_mem]
      intro name hmem
      obtain ⟨⟨v, hv⟩, hno⟩ := (hstrangers.mem_iff name).1 hmem
      simp only [Table.ofFields, List.map_cons, List.map_nil, List.mem_cons, Prod.mk.injEq,
        Value.text.injEq, List.not_mem_nil, or_false] at hv
      rcases hv with ⟨rfl, -⟩ | ⟨rfl, -⟩
      . exact hno .indent rfl
      . exact hno .examples rfl
    obtain ⟨s, hs, hget⟩ := (hload _).2.1 hnone
    exact ⟨s, hs, hget .indent, hget .examples, hget .benchmark⟩
  . have hfile := sets_of_wholeMapping "zoom: 1\nindent: 0\nangle: 2\n"
      [("zoom", 1), ("indent", 0), ("angle", 2)] (by decide +kernel)
    obtain ⟨strangers, hstrangers, hload⟩ := load_precedence lawful_parse hname.leads hfile
    have hall : strangers = ["angle", "zoom"] := by
      refine hstrangers.unique ⟨by decide +kernel, fun name => ?_⟩
      simp only [Table.ofFields, List.map_cons, List.map_nil, List.mem_cons, Prod.mk.injEq,
        Value.text.injEq, List.not_mem_nil, or_false]
      constructor
      . rintro (rfl | rfl)
        . exact ⟨⟨.int 2, by simp⟩, Setting.named?_eq_none_iff.1 rfl⟩
        . exact ⟨⟨.int 1, by simp⟩, Setting.named?_eq_none_iff.1 rfl⟩
      . rintro ⟨⟨v, ⟨rfl, -⟩ | ⟨rfl, -⟩ | ⟨rfl, -⟩⟩, hno⟩
        . exact .inr rfl
        . exact absurd rfl (hno .indent)
        . exact .inl rfl
    rw [hall] at hload
    obtain ⟨fault, hfault, -, hmessage⟩ := (hload []).1 (List.cons_ne_nil _ _)
    rw [hname.shownPath] at hmessage
    exact ⟨fault, hfault, hmessage.trans (by decide +kernel)⟩

end Load

end Settings

end ApiElements
