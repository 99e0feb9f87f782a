import ApiElements.Proofs.Compile.Ranked

/-!
This module contains the termination of both compilers under registries whose declarations can be
ranked. What an element extends makes it larger, so that no measure of the element decreases: the
outer induction is over the ranks of the names in it, the inner one over its size, and what becomes
of an extended element is settled by the rank of the type that it extends.
-/

namespace ApiElements

open Outcome Logged

namespace Registry

variable {r : Registry} {rank : Value → Nat}

/--
Both compilers come to an answer on an element, and on its content as that of an object.
-/
structure Halts (r : Registry) (e : Element) : Prop where
  example_settles : Settles fun n => r.exampleWithin n (.element e)
  schema_settles : Settles fun n => r.schemaWithin n (.element e)
  exampleObject_settles : Settles fun n => r.exampleObjectWithin n e.content
  schemaOfObject_settles : Settles fun n => r.schemaOfObjectWithin n e.content

section Values

variable {v : Value}

theorem exampleWithin_settles (h : v.All r.Halts) : Settles fun n => r.exampleWithin n v := by
  cases v with
  | element e => exact h.self.example_settles
  | _ => exact .of_succ (settles_pure _)

theorem schemaWithin_settles (h : v.All r.Halts) : Settles fun n => r.schemaWithin n v := by
  cases v with
  | element e => exact h.self.schema_settles
  | _ => exact .of_succ (settles_const (shallow_error (by decide)))

theorem exampleVisit_settles (h : v.All r.Halts) (entries : Table Value)
    : Settles fun n => r.exampleVisit n entries v := by
  unfold exampleVisit
  split
  . next e =>
    split
    . split
      . apply settles_lift_bind shallow_first
        intro variant hvariant
        apply settles_lift_bind shallow_elementContent
        intro chosen hchosen
        cases variant with
        | element option =>
          injection hchosen with hchosen
          subst hchosen
          exact (h.content.first hvariant).self.exampleObject_settles.map _
        | _ => contradiction
      . exact settles_pure entries
    . apply settles_lift_bind shallow_value
      intro value hvalue
      have hrest : ∀ sample, Settles fun _ => (do
          let key ← (e.key : Except Fault Value)
          pure (Table.put entries (← (key.asKey : Except Fault Value)) sample) :
            Logged (Table Value)) := by
        intro sample
        apply settles_lift_bind shallow_key
        intro key _
        apply settles_lift_bind shallow_asKey
        intro key _
        exact settles_pure _
      dsimp only
      split
      . exact (settles_pure _).bind hrest
      . exact (exampleWithin_settles (h.value hvalue)).bind hrest
    . exact settles_pure entries
  . exact settles_pure entries

theorem schemaVisit_settles (h : v.All r.Halts) (g : Schema.Gathered)
    : Settles fun n => r.schemaVisit n g v := by
  unfold schemaVisit
  split
  . next e =>
    split
    . apply settles_lift_bind shallow_items
      intro options hoptions
      have hfold : Settles fun n => options.foldlM (fun state option =>
          Schema.Gathered.addOption state <$> r.schemaWithin n option) (g, []) := by
        apply settles_foldlM
        intro option hoption state
        exact (schemaWithin_settles (h.content.items hoptions option hoption)).map _
      apply hfold.bind
      intro state
      exact settles_pure _
    . apply settles_lift_bind shallow_key
      intro key _
      apply settles_lift_bind shallow_value
      intro value hvalue
      have hrest : ∀ s, Settles fun _ => (liftM (g.addMember e key s) : Logged Schema.Gathered) :=
        fun _ => settles_const shallow_addMember
      dsimp only
      split
      . exact (settles_pure _).bind hrest
      . exact (schemaWithin_settles (h.value hvalue)).bind hrest
    . exact settles_pure g
  . exact settles_pure g

end Values

variable {k : Nat}

theorem exampleObjectWithin_settles (hranked : r.Ranked rank)
    (hdeclared : ∀ entry ∈ r.types, rank entry.1 < k → (Value.element entry.2).All r.Halts)
    {content : Value} (hall : content.All r.Halts) (hbelow : r.Below rank k content)
    : Settles fun n => r.exampleObjectWithin n content := by
  have hmeets := meets_scan hranked hdeclared hall hbelow
  apply Settles.of_succ
  simp only [exampleObjectWithin_succ]
  apply settles_walk
  . exact fun v hv => exampleVisit_settles (hmeets _ hv)
  . exact fun fault hfault => hmeets _ hfault

theorem schemaOfObjectWithin_settles (hranked : r.Ranked rank)
    (hdeclared : ∀ entry ∈ r.types, rank entry.1 < k → (Value.element entry.2).All r.Halts)
    {content : Value} (hall : content.All r.Halts) (hbelow : r.Below rank k content)
    : Settles fun n => r.schemaOfObjectWithin n content := by
  have hmeets := meets_scan hranked hdeclared hall hbelow
  have hwalk : Settles fun n => walk (r.schemaVisit n) {} (r.scan content) := by
    apply settles_walk
    . exact fun v hv => schemaVisit_settles (hmeets _ hv)
    . exact fun fault hfault => hmeets _ hfault
  apply Settles.of_succ
  simp only [schemaOfObjectWithin_succ]
  apply hwalk.bind
  intro gathered
  exact settles_pure _

section Merged

variable {e : Element} {α : Type}

theorem resolve_settles {name : Value} (hname : e.kind = .named name)
    {g : Nat → Option Element → Logged α} (hnone : Settles fun n => g n none)
    (hsome : ∀ declared merged, r.types.get? name = some declared →
      declared.extendBy e = .ok merged → Settles fun n => g n (some merged))
    : Settles fun n => r.resolve e >>= g n := by
  apply settles_const_bind shallow_resolve
  intro found hfound
  obtain ⟨-, ⟨-, rfl⟩ | ⟨declared, merged, hdeclared, hextend, rfl⟩⟩ :=
    resolve_eq_ok r hname hfound
  . exact hnone
  . exact hsome declared merged hdeclared hextend

theorem exampleWithin_settles_of_merged (hall : e.content.All r.Halts)
    (hexample : Settles fun n => r.exampleObjectWithin n e.content)
    (hmerged : ∀ name, e.kind = .named name → ∀ declared merged,
      r.types.get? name = some declared → declared.extendBy e = .ok merged → r.Halts merged)
    : Settles fun n => r.exampleWithin n (.element e) := by
  apply Settles.of_succ
  unfold exampleWithin
  dsimp only
  split
  . exact settles_pure _
  . exact settles_pure _
  . exact settles_pure _
  . split
    . apply settles_lift_bind shallow_first
      intro first hfirst
      exact exampleWithin_settles (hall.first hfirst)
    . exact settles_pure _
  . apply settles_lift_bind shallow_items
    intro items hitems
    apply Settles.map
    apply settles_mapM
    exact fun x hx => exampleWithin_settles (hall.items hitems x hx)
  . exact hexample.map _
  . next name hname =>
    apply resolve_settles hname
    . exact settles_pure _
    . exact fun declared merged hget hextend =>
        (hmerged name hname declared merged hget hextend).example_settles
  . exact settles_pure _

theorem schemaOfKind_settles_of_merged (hall : e.content.All r.Halts)
    (hschema : Settles fun n => r.schemaOfObjectWithin n e.content)
    (hmerged : ∀ name, e.kind = .named name → ∀ declared merged,
      r.types.get? name = some declared → declared.extendBy e = .ok merged → r.Halts merged)
    : Settles fun n => r.schemaOfKind n e := by
  unfold schemaOfKind
  split
  . exact settles_const shallow_ofLiteral
  . exact settles_const shallow_ofLiteral
  . exact settles_const shallow_ofLiteral
  . exact settles_const shallow_ofChoice
  . apply settles_lift_bind shallow_items
    intro items hitems
    apply Settles.map
    apply settles_mapM
    exact fun x hx => schemaWithin_settles (hall.items hitems x hx)
  . exact hschema
  . exact hschema
  . next name hname =>
    apply resolve_settles hname
    . exact settles_pure _
    . exact fun declared merged hget hextend =>
        (hmerged name hname declared merged hget hextend).schema_settles
  . exact settles_pure _

theorem halts_of_merged (hall : e.content.All r.Halts)
    (hexample : Settles fun n => r.exampleObjectWithin n e.content)
    (hschema : Settles fun n => r.schemaOfObjectWithin n e.content)
    (hmerged : ∀ name, e.kind = .named name → ∀ declared merged,
      r.types.get? name = some declared → declared.extendBy e = .ok merged → r.Halts merged)
    : r.Halts e where
  exampleObject_settles := hexample
  schemaOfObject_settles := hschema
  example_settles := exampleWithin_settles_of_merged hall hexample hmerged
  schema_settles := by
    apply Settles.of_succ
    simp only [schemaWithin_element]
    apply (schemaOfKind_settles_of_merged hall hschema hmerged).bind
    intro s
    exact settles_const shallow_attribute

end Merged

/--
An element halts if all that its content holds does and the type that it extends, if there is one,
has a rank less than `j`: the type that the declaration extends in turn has a lower one.
-/
theorem halts_of_content (hranked : r.Ranked rank)
    (hdeclared : ∀ entry ∈ r.types, rank entry.1 < k → (Value.element entry.2).All r.Halts)
    {j : Nat} {e : Element} (hj : j ≤ k)
    (hname : ∀ name, e.kind = .named name → r.NameBelow rank j name)
    (hall : e.content.All r.Halts) (hbelow : r.Below rank k e.content) : r.Halts e := by
  induction j using Nat.strongRecOn generalizing e with
  | ind j ih =>
    apply halts_of_merged hall
    . exact exampleObjectWithin_settles hranked hdeclared hall hbelow
    . exact schemaOfObjectWithin_settles hranked hdeclared hall hbelow
    . intro name hkind declared merged hget hextend
      obtain ⟨id, hmem, hsame⟩ := Table.mem_of_get? hget
      have hid : rank id < j := hname name hkind _ hmem hsame
      have hlower := hranked _ hmem
      obtain ⟨hkind', hcontent⟩ := extendBy_eq_ok hextend
      -- The merged element extends what the declaration extends, which is of a lower rank.
      apply ih (rank id) hid (by omega)
      . intro name' hkind''
        exact hlower declared (.self declared) name' (.inl (hkind' ▸ hkind''))
      . intro x hx
        rcases holds_of_mergeContent hcontent hx with hx | hx
        . exact hdeclared _ hmem (by dsimp only; omega) x (.content hx)
        . exact hall x hx
      . intro x hx
        rcases holds_of_mergeContent hcontent hx with hx | hx
        . exact (hlower.mono (by dsimp only; omega)) x (.content hx)
        . exact hbelow x hx

theorem halts_of_below (hranked : r.Ranked rank) {e : Element}
    (hbelow : r.Below rank k (.element e)) : r.Halts e := by
  induction k using Nat.strongRecOn generalizing e with
  | ind k ihrank =>
    induction hsize : sizeOf e using Nat.strongRecOn generalizing e with
    | ind size ih =>
      subst hsize
      apply halts_of_content hranked _ (Nat.le_refl k)
      . exact fun name hkind => hbelow e (.self e) name (.inl hkind)
      . intro x hx
        have hlt : sizeOf x < sizeOf e := by
          have := hx.sizeOf_lt
          cases e with
          | mk kind info attributes content =>
            rw [Element.content] at this
            rw [Element.mk.sizeOf_spec]
            omega
        apply ih (sizeOf x) hlt _ rfl
        intro y hy
        exact hbelow y (.content (hx.trans hy))
      . exact hbelow.content
      . intro entry hmem hrank x hx
        apply ihrank (rank entry.1) hrank
        intro y hy
        exact hranked entry hmem y (hx.trans hy)

/--
If the declarations can be ranked so that each refers to lower ones only, then both compilers come
to an answer on every element: from some depth on it stays the same, and it is not that something
is nested too deeply.
-/
theorem exists_bound_of_ranked (hranked : r.Ranked rank) (root : Element)
    : ∃ bound, ∀ n ≥ bound,
        r.exampleWithin n (.element root) = r.exampleWithin bound (.element root)
          ∧ r.schemaWithin n (.element root) = r.schemaWithin bound (.element root)
          ∧ Shallow (r.exampleWithin n (.element root)).result
          ∧ Shallow (r.schemaWithin n (.element root)).result := by
  obtain ⟨k, hk⟩ := exists_rank_bound r rank
  have hbelow : r.Below rank k (.element root) := fun _ _ _ _ entry hmem _ => hk entry hmem
  have hhalts := halts_of_below hranked hbelow
  obtain ⟨x, hx, bound, hbound⟩ := hhalts.example_settles
  obtain ⟨y, hy, bound', hbound'⟩ := hhalts.schema_settles
  dsimp only at hbound hbound'
  refine ⟨max bound bound', ?_⟩
  intro n hn
  rw [hbound n (by omega), hbound _ (Nat.le_max_left _ _), hbound' n (by omega),
    hbound' _ (Nat.le_max_right _ _)]
  exact ⟨rfl, rfl, hx, hy⟩

def plainElement (kind : Kind) (content : Value) : Element :=
  .mk kind (.object []) (.object []) content

def plainMember (name : String) (value : Value) : Element :=
  plainElement .member (.member (.element (plainElement .string (.text name))) value)

/--
Three types of which the first includes the third and has a member of the second, which extends the
third.
-/
def chain : Registry where
  types := [
    (.text "A", plainElement .object (.tuple [
      .element (plainElement .ref (.ref (.text "C"))),
      .element (plainMember "b" (.element (plainElement (.named (.text "B")) .null)))])),
    (.text "B", plainElement (.named (.text "C")) (.tuple [.element (plainMember "d" .null)])),
    (.text "C", plainElement .object (.tuple [.element (plainMember "c" .null)]))]

def chainRank (id : Value) : Nat :=
  if (Value.text "A").same id then 2 else if (Value.text "B").same id then 1 else 0

theorem ranked_chain : chain.Ranked chainRank := by
  simp [Ranked, Below, Value.All, NameBelow, chain, plainElement, plainMember, Element.content,
    Element.RefersTo, Element.kind, chainRank]

theorem exists_bound_chain
    : chain.Ranked chainRank
        ∧ ∃ bound, ∀ n ≥ bound,
            chain.exampleWithin n (.element (plainElement (.named (.text "A")) .null))
                = chain.exampleWithin bound (.element (plainElement (.named (.text "A")) .null))
              ∧ chain.schemaWithin n (.element (plainElement (.named (.text "A")) .null))
                = chain.schemaWithin bound (.element (plainElement (.named (.text "A")) .null))
              ∧ Shallow (chain.exampleWithin n
                  (.element (plainElement (.named (.text "A")) .null))).result
              ∧ Shallow (chain.schemaWithin n
                  (.element (plainElement (.named (.text "A")) .null))).result := by
  exact ⟨ranked_chain, exists_bound_of_ranked ranked_chain _⟩

end Registry

end ApiElements
