import ApiElements.Proofs.Compile.Faults
import ApiElements.Proofs.Holds

/-!
This module contains registries whose declarations refer to declarations of lower rank only, and what
is met when a content is gone through under such a registry.
-/

namespace ApiElements

/--
An element refers to a name, as the type that it extends or as the target of an include.
-/
def Element.RefersTo (e : Element) (name : Value) : Prop :=
  e.kind = .named name ∨ (e.kind = .ref ∧ e.content = .ref name)

namespace Registry

variable {r : Registry} {rank : Value → Nat}

def NameBelow (r : Registry) (rank : Value → Nat) (k : Nat) (name : Value) : Prop :=
  ∀ entry ∈ r.types, name.same entry.1 → rank entry.1 < k

/--
All names that the elements in a value refer to are either not declared or of a rank less than `k`.
-/
def Below (r : Registry) (rank : Value → Nat) (k : Nat) (v : Value) : Prop :=
  v.All fun x => ∀ name, x.RefersTo name → r.NameBelow rank k name

/--
Every declaration refers to declarations of a lower rank only.
-/
def Ranked (r : Registry) (rank : Value → Nat) : Prop :=
  ∀ entry ∈ r.types, r.Below rank (rank entry.1) (.element entry.2)

theorem NameBelow.mono {j k : Nat} {name : Value} (h : r.NameBelow rank j name) (hle : j ≤ k)
    : r.NameBelow rank k name := by
  intro entry hmem hsame
  exact Nat.lt_of_lt_of_le (h entry hmem hsame) hle

theorem Below.mono {j k : Nat} {v : Value} (h : r.Below rank j v) (hle : j ≤ k)
    : r.Below rank k v := by
  intro x hx name hname
  exact (h x hx name hname).mono hle

theorem exists_rank_bound (r : Registry) (rank : Value → Nat)
    : ∃ k, ∀ entry ∈ r.types, rank entry.1 < k := by
  cases r with
  | mk types =>
    induction types with
    | nil => exact ⟨0, by simp⟩
    | cons entry rest ih =>
      obtain ⟨k, hk⟩ := ih
      refine ⟨max k (rank entry.1 + 1), ?_⟩
      intro other hmem
      rcases List.mem_cons.1 hmem with rfl | hmem
      . omega
      . have := hk other hmem
        omega

end Registry

theorem countP_lt_of_mem {α : Type} {p q : α → Bool} {as : List α} {a : α}
    (hpq : ∀ b, p b = true → q b = true) (hmem : a ∈ as) (hp : p a = false) (hq : q a = true)
    : as.countP p < as.countP q := by
  obtain ⟨before, after, rfl⟩ := List.append_of_mem hmem
  have hbefore := List.countP_mono_left (l := before) (fun b _ => hpq b)
  have hafter := List.countP_mono_left (l := after) (fun b _ => hpq b)
  simp only [List.countP_append, List.countP_cons, hp, hq]
  simp
  omega

/--
What is met is an entry whose elements all have some property, or an include of a type that is not
declared, or a failure that is neither about nesting nor without end.
-/
def Step.Meets (p : Element → Prop) : Step → Prop
  | .entry v => v.All p
  | .unresolved _ => True
  | .fault cause => cause.isDeep = false

namespace Registry

variable {r : Registry} {rank : Value → Nat} {p : Element → Prop} {k : Nat}

theorem meets_scanEntry {included : Value → List Step} {v : Value} (hv : v.All p)
    (hincluded : ∀ e href, v = .element e → e.RefersTo href → ∀ step ∈ included href, step.Meets p)
    : ∀ step ∈ scanEntry included v, step.Meets p := by
  intro step hstep
  unfold scanEntry at hstep
  split at hstep
  . split at hstep
    . split at hstep
      . exact hincluded _ _ rfl (.inr ⟨rfl, rfl⟩) step hstep
      . rw [List.mem_singleton] at hstep
        subst hstep
        rfl
    . rw [List.mem_singleton] at hstep
      subst hstep
      rfl
  . rw [List.mem_singleton] at hstep
    subst hstep
    exact hv

theorem meets_entriesOf {included : Value → List Step} {content : Value} (hcontent : content.All p)
    (hincluded : ∀ e href, content.Holds e → e.RefersTo href →
      ∀ step ∈ included href, step.Meets p)
    : ∀ step ∈ (entriesOf content).flatMap (scanEntry included), step.Meets p := by
  intro step hstep
  obtain ⟨v, hv, hscan⟩ := List.mem_flatMap.1 hstep
  cases content with
  | tuple items =>
    refine meets_scanEntry (hcontent.tuple hv) ?_ step hscan
    rintro e href rfl hrefers
    exact hincluded e href (.tuple hv (.self e)) hrefers
  | _ => contradiction

/--
An include is followed to its end: each type on the way has a lower rank than the one before, so
that no more types are passed than have such a rank.
-/
theorem meets_included (hranked : r.Ranked rank)
    (hp : ∀ entry ∈ r.types, rank entry.1 < k → (Value.element entry.2).All p) {depth j : Nat}
    {href : Value} (hj : j ≤ k) (hhref : r.NameBelow rank j href)
    (hdepth : r.types.countP (fun entry => rank entry.1 < j) < depth)
    : ∀ step ∈ r.included depth href, step.Meets p := by
  induction depth generalizing j href with
  | zero => contradiction
  | succ depth ih =>
    unfold included
    split
    . intro step hstep
      rw [List.mem_singleton] at hstep
      subst hstep
      exact True.intro
    . next e he =>
      obtain ⟨id, hmem, hsame⟩ := Table.mem_of_get? he
      have hid : rank id < j := hhref _ hmem hsame
      apply meets_entriesOf (hp _ hmem (Nat.lt_of_lt_of_le hid hj)).content
      intro x href' hx hrefers
      apply ih (j := rank id) (by omega) (hranked _ hmem x (.content hx) href' hrefers)
      -- The declaration itself has a rank less than `j`, but not less than its own.
      have hfewer := countP_lt_of_mem (p := fun entry => rank entry.1 < rank id)
        (q := fun entry => rank entry.1 < j) (by simp; omega) hmem (by simp) (by simpa using hid)
      omega

theorem meets_scan (hranked : r.Ranked rank)
    (hp : ∀ entry ∈ r.types, rank entry.1 < k → (Value.element entry.2).All p) {content : Value}
    (hcontent : content.All p) (hbelow : r.Below rank k content)
    : ∀ step ∈ r.scan content, step.Meets p := by
  apply meets_entriesOf hcontent
  intro e href he hrefers
  apply meets_included hranked hp (Nat.le_refl k) (hbelow e he href hrefers)
  have := List.countP_le_length (p := fun entry : Value × Element => rank entry.1 < k)
    (l := r.types)
  omega

end Registry

end ApiElements
