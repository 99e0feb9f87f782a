import ApiElements.Proofs.Compile.Confined
import ApiElements.Proofs.Inheritance.Inclusion
import Mathlib.Logic.Relation

/-!
This module contains that expansion flattens a content: each include is replaced by what the type
that it names is flattened to, and nothing else is touched. A loop that replaces one include at a time
comes to an end with the same entries.
-/

namespace ApiElements

def Element.Includes (e : Element) (href : Value) : Prop :=
  e.kind = .ref ∧ e.content = .ref href

def Value.Plain (v : Value) : Prop :=
  ∀ e, v = .element e → e.kind ≠ .ref

theorem Element.Includes.unique {e : Element} {href href' : Value} (h : e.Includes href)
    (h' : e.Includes href') : href = href' := by
  have heq := h.2.symm.trans h'.2
  injection heq

theorem Element.Includes.not_plain {e : Element} {href : Value} (h : e.Includes href)
    : ¬ (Value.element e).Plain := by
  exact fun hplain => hplain e rfl h.1

def Step.entry? : Step → Option Value
  | .entry v => some v
  | _ => none

def Step.unresolved? : Step → Option Value
  | .unresolved href => some href
  | _ => none

namespace Registry

variable {r : Registry} {rank : Value → Nat} {depth : Nat} {name : Value}
variable {items rest entries missing xs ys : List Value} {steps : List Step}

/--
The includes among some entries have names that can be looked up.
-/
def Linkable (items : List Value) : Prop :=
  ∀ e, .element e ∈ items → e.kind = .ref → ∃ href, e.Includes href ∧ href.hashable = true

/--
What a sequence is flattened to, from left to right, and the names that it includes although they are
not declared. An include of a declared type stands for what the content of that type is flattened to,
any other include for nothing, and every other entry for itself.
-/
inductive Flattens (r : Registry) : List Value → List Value → List Value → Prop where
  | nil : Flattens r [] [] []
  | entry {v : Value} {rest entries missing : List Value} (plain : v.Plain)
    (after : Flattens r rest entries missing) : Flattens r (v :: rest) (v :: entries) missing
  | unresolved {e : Element} {href : Value} {rest entries missing : List Value}
    (includes : e.Includes href) (absent : r.types.get? href = none)
    (after : Flattens r rest entries missing)
    : Flattens r (.element e :: rest) entries (href :: missing)
  | resolved {e declared : Element} {href : Value} {inner unknown rest entries missing : List Value}
    (includes : e.Includes href) (present : r.types.get? href = some declared)
    (within : Flattens r (entriesOf declared.content) inner unknown)
    (after : Flattens r rest entries missing)
    : Flattens r (.element e :: rest) (inner ++ entries) (unknown ++ missing)

def unresolvedInclude (href : Value) : Log.Record :=
  ⟨.debug, .registry, "Unresolved include '" ++ href.plain ++ "'"⟩

section Flattens

/--
There is one way only to flatten a sequence.
-/
theorem Flattens.unique (h : r.Flattens items entries missing) {entries' missing' : List Value}
    (h' : r.Flattens items entries' missing') : entries' = entries ∧ missing' = missing := by
  induction h generalizing entries' missing' with
  | nil =>
    cases h'
    exact ⟨rfl, rfl⟩
  | entry plain _ ih =>
    cases h' with
    | entry _ after =>
      obtain ⟨rfl, rfl⟩ := ih after
      exact ⟨rfl, rfl⟩
    | unresolved includes => exact absurd plain includes.not_plain
    | resolved includes => exact absurd plain includes.not_plain
  | unresolved includes absent _ ih =>
    cases h' with
    | entry plain => exact absurd plain includes.not_plain
    | unresolved includes' _ after =>
      obtain ⟨rfl, rfl⟩ := ih after
      exact ⟨rfl, by rw [includes'.unique includes]⟩
    | resolved includes' present =>
      rw [includes'.unique includes, absent] at present
      contradiction
  | resolved includes present _ _ ihWithin ihAfter =>
    cases h' with
    | entry plain => exact absurd plain includes.not_plain
    | unresolved includes' absent =>
      rw [includes'.unique includes, present] at absent
      contradiction
    | resolved includes' present' within after =>
      rw [includes'.unique includes, present, Option.some.injEq] at present'
      subst present'
      obtain ⟨rfl, rfl⟩ := ihWithin within
      obtain ⟨rfl, rfl⟩ := ihAfter after
      exact ⟨rfl, rfl⟩

theorem Flattens.plain (h : r.Flattens items entries missing) : ∀ v ∈ entries, v.Plain := by
  induction h with
  | nil => simp
  | entry plain _ ih => exact List.forall_mem_cons.2 ⟨plain, ih⟩
  | unresolved _ _ _ ih => exact ih
  | resolved _ _ _ _ ihWithin ihAfter => exact List.forall_mem_append.2 ⟨ihWithin, ihAfter⟩

theorem Flattens.exists_pieces (h : r.Flattens items entries missing)
    : ∃ pieces, List.Forall₂ (fun v piece => v.Plain → piece = [v]) items pieces
        ∧ entries = pieces.flatten := by
  induction h with
  | nil => exact ⟨[], .nil, rfl⟩
  | @entry v _ _ _ _ _ ih =>
    obtain ⟨pieces, hpieces, rfl⟩ := ih
    exact ⟨[v] :: pieces, .cons (fun _ => rfl) hpieces, rfl⟩
  | unresolved includes _ _ ih =>
    obtain ⟨pieces, hpieces, rfl⟩ := ih
    refine ⟨[] :: pieces, .cons ?_ hpieces, rfl⟩
    exact fun hplain => absurd hplain includes.not_plain
  | @resolved _ _ _ inner _ _ _ _ includes _ _ _ _ ih =>
    obtain ⟨pieces, hpieces, rfl⟩ := ih
    refine ⟨inner :: pieces, .cons ?_ hpieces, rfl⟩
    exact fun hplain => absurd hplain includes.not_plain

end Flattens

section Steps

structure Traverses (r : Registry) (items : List Value) (steps : List Step) : Prop where
  flattens : r.Flattens items (steps.filterMap Step.entry?) (steps.filterMap Step.unresolved?)
  sound : ∀ fault, .fault fault ∉ steps

def Follows (r : Registry) (href : Value) (steps : List Step) : Prop :=
  match r.types.get? href with
  | none => steps = [.unresolved href]
  | some declared => r.Traverses (entriesOf declared.content) steps

theorem scanEntry_plain {included : Value → List Step} {v : Value} (h : v.Plain)
    : scanEntry included v = [.entry v] := by
  unfold scanEntry
  split
  . exact absurd rfl (h _ rfl)
  . rfl

theorem Follows.traverses {e : Element} {href : Value} {inner : List Step} (hincludes : e.Includes href)
    (h : r.Follows href inner) (hrest : r.Traverses rest steps)
    : r.Traverses (.element e :: rest) (inner ++ steps) := by
  unfold Follows at h
  split at h
  . next habsent =>
    subst h
    exact ⟨.unresolved hincludes habsent hrest.flattens, by simpa using hrest.sound⟩
  . next declared hpresent =>
    constructor
    . rw [List.filterMap_append, List.filterMap_append]
      exact .resolved hincludes hpresent h.flattens hrest.flattens
    . intro fault hmem
      rcases List.mem_append.1 hmem with hmem | hmem
      . exact h.sound fault hmem
      . exact hrest.sound fault hmem

theorem traverses_flatMap {included : Value → List Step} (hitems : Linkable items)
    (h : ∀ e href, .element e ∈ items → e.Includes href → href.hashable = true →
      r.Follows href (included href))
    : r.Traverses items (items.flatMap (scanEntry included)) := by
  induction items with
  | nil => exact ⟨.nil, by simp⟩
  | cons v rest ih =>
    have hrest := ih (fun e hmem => hitems e (List.mem_cons_of_mem _ hmem))
      fun e href hmem => h e href (List.mem_cons_of_mem _ hmem)
    rw [List.flatMap_cons]
    by_cases hplain : v.Plain
    . rw [scanEntry_plain hplain]
      exact ⟨.entry hplain hrest.flattens, by simpa using hrest.sound⟩
    . unfold Value.Plain at hplain
      push Not at hplain
      obtain ⟨e, rfl, hkind⟩ := hplain
      obtain ⟨href, hincludes, hhashable⟩ := hitems e (by simp) hkind
      rw [scanEntry_ref hkind hincludes.2 hhashable]
      exact (h e href (by simp) hincludes hhashable).traverses hincludes hrest

/--
As the rank goes down with every include that is followed, the depth suffices to get to the end.
-/
theorem follows_included (hdescends : Descends (fun _ => True) rank r)
    (hlinkable : ∀ name declared, r.types.get? name = some declared →
      Linkable (entriesOf declared.content))
    (hdepth : r.Suffices rank name depth) : r.Follows name (r.included depth name) := by
  induction depth generalizing name with
  | zero => exact absurd hdepth.1 (Nat.lt_irrefl 0)
  | succ depth ih =>
    unfold Follows included
    cases hget : r.types.get? name with
    | none => rfl
    | some declared =>
      apply traverses_flatMap (hlinkable name declared hget)
      intro e href hmem hincludes _
      apply ih
      apply hdepth.included hdescends.rank_eq hget
      exact hdescends.rank_lt name declared trivial hget e href hmem hincludes.1 hincludes.2

theorem traverses_scan (hdescends : Descends (fun _ => True) rank r)
    (hlinkable : ∀ name declared, r.types.get? name = some declared →
      Linkable (entriesOf declared.content)) {content : Value}
    (hcontent : Linkable (entriesOf content)) : r.Traverses (entriesOf content) (r.scan content) := by
  apply traverses_flatMap hcontent
  intro e href _ _ _
  exact follows_included hdescends hlinkable (suffices_length r rank href)

end Steps

section Expand

theorem walk_append {σ : Type} (visit : σ → Value → Logged σ) (s : σ) (before after : List Step)
    : walk visit s (before ++ after) = walk visit s before >>= fun s => walk visit s after := by
  induction before generalizing s with
  | nil => rw [List.nil_append, walk, pure_bind]
  | cons step rest ih =>
    cases step with
    | entry v => simp only [List.cons_append, walk, ih, bind_assoc]
    | unresolved href => simp only [List.cons_append, walk, ih, bind_assoc]
    | fault fault => rfl

theorem walk_gather (before : List Value) (steps : List Step)
    : walk (fun entries v => pure (entries ++ [v])) before steps
        =
      (before ++ ·) <$> walk (fun entries v => pure (entries ++ [v])) [] steps := by
  induction steps generalizing before with
  | nil => simp [walk]
  | cons step rest ih =>
    cases step with
    | entry v =>
      rw [walk, walk, pure_bind, pure_bind, ih, ih ([] ++ [v]), Functor.map_map]
      simp only [List.nil_append, List.append_assoc]
    | unresolved href =>
      rw [walk, walk, map_bind]
      congr 1
      funext _
      exact ih before
    | fault fault => rfl

theorem expand_append (r : Registry) (xs ys : List Value)
    : r.expand (.tuple (xs ++ ys))
        =
      (do
        let before ← r.expand (.tuple xs)
        let after ← r.expand (.tuple ys)
        pure (before ++ after)) := by
  have hscan : r.scan (.tuple (xs ++ ys)) = r.scan (.tuple xs) ++ r.scan (.tuple ys) := by
    simp only [scan, entriesOf, List.flatMap_append]
  rw [expand, hscan, walk_append]
  congr 1
  funext before
  rw [walk_gather, map_eq_pure_bind]
  rfl

theorem walk_gather_of_sound (hsound : ∀ fault, .fault fault ∉ steps) (before : List Value)
    : walk (fun entries v => pure (entries ++ [v])) before steps
        =
      ⟨(steps.filterMap Step.unresolved?).map unresolvedInclude,
        .ok (before ++ steps.filterMap Step.entry?)⟩ := by
  induction steps generalizing before with
  | nil => simp [walk, pure]
  | cons step rest ih =>
    have hrest := ih fun fault hmem => hsound fault (List.mem_cons_of_mem _ hmem)
    cases step with
    | entry v =>
      rw [walk, pure_bind, hrest, List.append_assoc]
      rfl
    | unresolved href =>
      rw [walk, hrest, Logged.bind_of_ok _ (Logged.result_record _ _ _)]
      rfl
    | fault fault => exact absurd (by simp) (hsound fault)

end Expand

section Rounds

/--
The state of a loop over entries: those that it has given out, those that are still to come, and
what it has logged.
-/
structure Splicing where
  given : List Value
  pending : List Value
  log : List Log.Record

/--
One round of the loop. An include makes room for the entries of its type, of which the first one is
next; any other entry is given out. The loop stops when nothing is left.
-/
def splice (r : Registry) (s : Splicing) : Option Splicing :=
  match s.pending with
  | [] => none
  | .element (.mk .ref _ _ (.ref href)) :: rest =>
    match r.types.get? href with
    | none => some { s with pending := rest, log := s.log ++ [unresolvedInclude href] }
    | some declared => some { s with pending := entriesOf declared.content ++ rest }
  | v :: rest => some { s with given := s.given ++ [v], pending := rest }

def Rounds (r : Registry) : Splicing → Splicing → Prop :=
  Relation.ReflTransGen fun s s' => r.splice s = some s'

theorem splice_entry {v : Value} (h : v.Plain) (given : List Value) (log : List Log.Record)
    : r.splice ⟨given, v :: rest, log⟩ = some ⟨given ++ [v], rest, log⟩ := by
  unfold splice
  split
  . contradiction
  . next heq =>
    injection heq with heq
    exact absurd rfl (h _ heq)
  . next heq =>
    injection heq with hv hrest
    rw [hv, hrest]

theorem splice_include {e : Element} {href : Value} (h : e.Includes href) (given : List Value)
    (log : List Log.Record)
    : r.splice ⟨given, .element e :: rest, log⟩
        =
      match r.types.get? href with
      | none => some ⟨given, rest, log ++ [unresolvedInclude href]⟩
      | some declared => some ⟨given, entriesOf declared.content ++ rest, log⟩ := by
  obtain ⟨hkind, hcontent⟩ := h
  cases e with
  | mk kind info attributes content =>
    rw [Element.kind] at hkind
    rw [Element.content] at hcontent
    subst hkind hcontent
    rfl

/--
The loop gives out what the pending entries are flattened to, one round after the other, whatever
comes after them.
-/
theorem Flattens.rounds (h : r.Flattens items entries missing) (given rest : List Value)
    (log : List Log.Record)
    : r.Rounds ⟨given, items ++ rest, log⟩
        ⟨given ++ entries, rest, log ++ missing.map unresolvedInclude⟩ := by
  induction h generalizing given rest log with
  | nil =>
    simp only [List.nil_append, List.append_nil, List.map_nil]
    exact .refl
  | @entry v _ entries _ plain _ ih =>
    have hrest := ih (given ++ [v]) rest log
    rw [List.append_assoc] at hrest
    exact .head (splice_entry plain given log) hrest
  | @unresolved _ href _ _ missing includes absent _ ih =>
    have hrest := ih given rest (log ++ [unresolvedInclude href])
    rw [List.append_assoc] at hrest
    refine .head ?_ hrest
    rw [List.cons_append, splice_include includes, absent]
  | @resolved _ declared _ inner unknown others entries missing includes present _ _ ihWithin ihAfter =>
    -- The entries of the type come to stand before the others, which are left for later.
    have hwithin := ihWithin given (others ++ rest) log
    have hafter := ihAfter (given ++ inner) rest (log ++ unknown.map unresolvedInclude)
    rw [List.append_assoc, List.append_assoc, ← List.map_append] at hafter
    refine .head ?_ (hwithin.trans hafter)
    rw [List.cons_append, splice_include includes, present]

end Rounds

/--
If includes cannot go around in a circle, then the expansion of a content comes to an end. It gives
what the content is flattened to, with a record for each include of a type that is not declared, and
so does the loop that splices the types in one at a time. No include is left, and all that is none
stays where it is. Of sequences that are put together the expansions are put together.
-/
theorem expand_flattens (hdescends : Descends (fun _ => True) rank r)
    (hlinkable : ∀ name declared, r.types.get? name = some declared →
      Linkable (entriesOf declared.content))
    : (∀ content, Linkable (entriesOf content) →
        ∃ entries missing, r.Flattens (entriesOf content) entries missing
          ∧ (∀ entries' missing', r.Flattens (entriesOf content) entries' missing' →
              entries' = entries ∧ missing' = missing)
          ∧ r.expand content = ⟨missing.map unresolvedInclude, .ok entries⟩
          ∧ r.Rounds ⟨[], entriesOf content, []⟩ ⟨entries, [], missing.map unresolvedInclude⟩
          ∧ (∀ v ∈ entries, v.Plain)
          ∧ ∃ pieces, entries = pieces.flatten
              ∧ List.Forall₂ (fun v piece => v.Plain → piece = [v]) (entriesOf content) pieces)
        ∧ ∀ xs ys, r.expand (.tuple (xs ++ ys))
            =
          (do
            let before ← r.expand (.tuple xs)
            let after ← r.expand (.tuple ys)
            pure (before ++ after)) := by
  refine ⟨?_, expand_append r⟩
  intro content hcontent
  obtain ⟨hflattens, hsound⟩ := traverses_scan hdescends hlinkable hcontent
  obtain ⟨pieces, hpieces, hentries⟩ := hflattens.exists_pieces
  refine ⟨_, _, hflattens, fun _ _ => hflattens.unique, walk_gather_of_sound hsound [], ?_,
    hflattens.plain, pieces, hentries, hpieces⟩
  have hrounds := hflattens.rounds [] [] []
  rwa [List.append_nil] at hrounds

section Samples

def includeOf (name : String) : Element :=
  plainElement .ref (.ref (.text name))

def shelf : Registry where
  types := [
    (.text "Book", plainElement .object (.tuple [.element (includeOf "Work"),
      .element (plainMember "pages" .null)])),
    (.text "Work", plainElement .object (.tuple [.element (plainMember "title" .null),
      .element (includeOf "Series"), .element (includeOf "Author")])),
    (.text "Series", plainElement .object (.tuple [.element (plainMember "volume" .null)]))]

def shelfRank : Value → Nat
  | .text name => if name = "Book" then 2 else if name = "Work" then 1 else 0
  | _ => 0

def loan : List Value := [.element (includeOf "Book"), .element (plainMember "lender" .null),
  .element (includeOf "Work")]

theorem mem_shelf {declared : Element} (h : shelf.types.get? name = some declared)
    : (name, declared) ∈ shelf.types := by
  obtain ⟨id, hmem, hsame⟩ := Table.mem_of_get? h
  have htext : ∃ s, id = .text s := by
    simp only [shelf, List.mem_cons, Prod.mk.injEq, List.not_mem_nil, or_false] at hmem
    rcases hmem with ⟨rfl, -⟩ | ⟨rfl, -⟩ | ⟨rfl, -⟩
    . exact ⟨_, rfl⟩
    . exact ⟨_, rfl⟩
    . exact ⟨_, rfl⟩
  obtain ⟨s, rfl⟩ := htext
  rw [Value.same_text.1 hsame]
  exact hmem

theorem descends_shelf : Descends (fun _ => True) shelfRank shelf := by
  have hrank : shelfRank
      = textRank fun name => if name = "Book" then 2 else if name = "Work" then 1 else 0 := by
    funext name
    cases name with
    | _ => rfl
  rw [hrank]
  apply descends_of_texts
  . simp [shelf, Table.TextKeyed]
  . decide

theorem linkable_loan : Linkable (entriesOf (.tuple loan)) := by
  simp [Linkable, loan, entriesOf, includeOf, Element.Includes, Element.kind, Element.content,
    plainElement, plainMember, Value.hashable]

theorem linkable_shelf {declared : Element} (h : shelf.types.get? name = some declared)
    : Linkable (entriesOf declared.content) := by
  have hmem := mem_shelf h
  simp only [shelf, List.mem_cons, Prod.mk.injEq, List.not_mem_nil, or_false] at hmem
  rcases hmem with ⟨-, rfl⟩ | ⟨-, rfl⟩ | ⟨-, rfl⟩
  all_goals
    simp [Linkable, entriesOf, includeOf, Element.Includes, Element.kind, Element.content,
      plainElement, plainMember, Value.hashable]

/--
The book brings along all that the work includes, and the work is included once more.
-/
def loaned : List Value :=
  ["title", "volume", "pages", "lender", "title", "volume"].map fun name =>
    .element (plainMember name .null)

theorem expand_flattens_loan
    : Descends (fun _ => True) shelfRank shelf
        ∧ (∀ name declared, shelf.types.get? name = some declared →
            Linkable (entriesOf declared.content))
        ∧ Linkable (entriesOf (.tuple loan))
        ∧ (∃ missing, shelf.Flattens loan loaned missing
            ∧ missing.map unresolvedInclude
                = List.replicate 2 ⟨.debug, .registry, "Unresolved include 'Author'"⟩)
        ∧ shelf.Rounds ⟨[], loan, []⟩
            ⟨loaned, [], List.replicate 2 ⟨.debug, .registry, "Unresolved include 'Author'"⟩⟩
        ∧ (shelf.expand (.tuple (loan ++ loan))).result = .ok (loaned ++ loaned) := by
  obtain ⟨hcontent, happend⟩ := expand_flattens descends_shelf fun _ _ => linkable_shelf
  obtain ⟨entries, missing, hflattens, -, hexpand, hrounds, -⟩ := hcontent (.tuple loan) linkable_loan
  have hloan : shelf.expand (.tuple loan)
      = ⟨List.replicate 2 ⟨.debug, .registry, "Unresolved include 'Author'"⟩, .ok loaned⟩ := by
    rfl
  rw [hloan, Logged.mk.injEq, Except.ok.injEq] at hexpand
  obtain ⟨hlog, rfl⟩ := hexpand
  rw [← hlog] at hrounds
  refine ⟨descends_shelf, fun _ _ => linkable_shelf, linkable_loan, ⟨missing, hflattens, hlog.symm⟩,
    hrounds, ?_⟩
  rw [happend, hloan]
  rfl

end Samples

end Registry

end ApiElements
