import ApiElements.Proofs.Outcome
import ApiElements.Proofs.Value.Keyed
import ApiElements.Yaml.Build

/-!
This module contains that the mappings in settings files have different keys: every object that is
built keeps them apart, from the entries that are met to the value that the file holds.
-/

namespace ApiElements

namespace Table

variable {α β γ : Type}

theorem Keyed.zip {t : Table α} (h : t.Keyed) (things : List β) (f : β → γ)
    : Keyed ((List.zip t things).map fun (entry, thing) => (entry.1, f thing)) where
  hashable := by
    intro entry hmem
    obtain ⟨pair, hpair, rfl⟩ := List.mem_map.1 hmem
    exact h.hashable pair.1 (List.of_mem_zip hpair).1
  distinct := by
    rw [List.pairwise_map]
    induction t generalizing things with
    | nil => exact .nil
    | cons entry rest ih =>
      cases things with
      | nil => exact .nil
      | cons thing things =>
        have hdistinct := (List.pairwise_cons.1 h.distinct).1
        rw [List.zip_cons_cons, List.pairwise_cons]
        exact ⟨fun pair hpair => hdistinct pair.1 (List.of_mem_zip hpair).1, ih h.tail things⟩

end Table

namespace Yaml

variable {g : Graph} {place : Nat} {v : Value}

theorem Graph.scalarValue_ne_object (h : g.scalarValue place = .ok v) (t : Table Value)
    : v ≠ .object t := by
  rintro rfl
  unfold Graph.scalarValue at h
  dsimp only at h
  split_ifs at h
  all_goals simp [Outcome.map_eq_ok, Outcome.bind_eq_ok, fail] at h

/--
A draft of an object has different keys, and nothing else than such a draft becomes an object.
-/
def Draft.Keyed : Draft → Prop
  | .complete v => ∀ t, v ≠ .object t
  | .object entries => entries.Keyed
  | _ => True

namespace Building

variable {b b' : Building} {draft : Draft} {places : List Nat}

def Keyed (b : Building) : Prop :=
  ∀ place draft, b.draft? place = some draft → draft.Keyed

theorem Keyed.put (h : b.Keyed) (hdraft : draft.Keyed) (place : Nat)
    : (b.put place draft).Keyed := by
  intro other found hfound
  unfold draft? Building.put at hfound
  rw [Array.getD_eq_getD_getElem?, Array.getElem?_setIfInBounds] at hfound
  split at hfound
  . split at hfound
    . rw [Option.getD_some, Option.some.injEq] at hfound
      exact hfound ▸ hdraft
    . contradiction
  . apply h other
    rw [draft?, Array.getD_eq_getD_getElem?]
    exact hfound

theorem keyed_meet (h : b.Keyed) (hmeet : b.meet place = .ok b') : b'.Keyed := by
  unfold meet at hmeet
  split at hmeet
  . injection hmeet with hmeet
    exact hmeet ▸ h
  . split at hmeet
    . injection hmeet with hmeet
      rw [← hmeet]
      exact h.put (show Draft.Keyed .unfilled from True.intro) place
    . rw [Outcome.bind_eq_ok] at hmeet
      obtain ⟨v, hv, hmeet⟩ := hmeet
      injection hmeet with hmeet
      rw [← hmeet]
      exact h.put (show Draft.Keyed (.complete v) from Graph.scalarValue_ne_object hv) place

theorem keyed_meetAll (h : b.Keyed) (hmeet : b.meetAll places = .ok b') : b'.Keyed := by
  exact Outcome.foldlM_preserves (fun _ _ _ h hmeet => keyed_meet h hmeet) h hmeet

theorem hashable_keyOf (h : b.keyOf place = .ok v) : v.hashable = true := by
  unfold keyOf at h
  split at h
  . split at h
    . next hhashable =>
      injection h with h
      exact h ▸ hhashable
    . contradiction
  . contradiction

theorem keyed_meetEntries {entries : Table Nat} (h : b.Keyed)
    (hmeet : b.meetEntries place = .ok (entries, b')) : entries.Keyed ∧ b'.Keyed := by
  unfold meetEntries at hmeet
  split at hmeet
  . rw [Outcome.bind_eq_ok] at hmeet
    obtain ⟨graph, -, hmeet⟩ := hmeet
    refine Outcome.foldlM_preserves (P := fun s : Table Nat × Building => s.1.Keyed ∧ s.2.Keyed)
      ?_ ⟨Table.keyed_nil, h⟩ hmeet
    rintro ⟨key, value⟩ ⟨entries, b⟩ ⟨entries', b'⟩ ⟨hentries, h⟩ hstep
    simp only [Outcome.bind_eq_ok, Except.ok.injEq, Prod.mk.injEq] at hstep
    obtain ⟨between, hkey, v, hv, last, hvalue, rfl, rfl⟩ := hstep
    exact ⟨hentries.put (hashable_keyOf hv) value, keyed_meet (keyed_meet h hkey) hvalue⟩
  . contradiction

theorem keyed_meetPairs {pairs : List (Nat × Nat)} {items : List Nat} (h : b.Keyed)
    (hmeet : b.meetPairs items = .ok (pairs, b')) : b'.Keyed := by
  refine Outcome.foldlM_preserves (P := fun s : List (Nat × Nat) × Building => s.2.Keyed)
    ?_ h hmeet
  rintro item ⟨pairs, b⟩ ⟨pairs', b'⟩ h hstep
  dsimp only at hstep
  split at hstep
  . simp only [Outcome.bind_eq_ok, Except.ok.injEq, Prod.mk.injEq] at hstep
    obtain ⟨last, hlast, -, rfl⟩ := hstep
    exact keyed_meetAll h hlast
  . contradiction

theorem keyed_fill (h : b.Keyed) (hfill : b.fill place = .ok b') : b'.Keyed := by
  unfold fill at hfill
  dsimp only at hfill
  split at hfill
  . rw [Outcome.bind_eq_ok] at hfill
    obtain ⟨⟨entries, last⟩, hmeet, hfill⟩ := hfill
    obtain ⟨hentries, hlast⟩ := keyed_meetEntries h hmeet
    injection hfill with hfill
    exact hfill ▸ hlast.put (show Draft.Keyed (.object entries) from hentries) place
  split at hfill
  . rw [Outcome.bind_eq_ok] at hfill
    obtain ⟨⟨entries, last⟩, hmeet, hfill⟩ := hfill
    injection hfill with hfill
    exact hfill ▸ (keyed_meetEntries h hmeet).2.put (show Draft.Keyed (.set _) from True.intro) place
  split at hfill
  . next items _ =>
    split at hfill
    . rw [Outcome.bind_eq_ok] at hfill
      obtain ⟨last, hmeet, hfill⟩ := hfill
      injection hfill with hfill
      exact hfill ▸ (keyed_meetAll h hmeet).put (show Draft.Keyed (.list items) from True.intro) place
    . rw [Outcome.bind_eq_ok] at hfill
      obtain ⟨⟨pairs, last⟩, hmeet, hfill⟩ := hfill
      injection hfill with hfill
      exact hfill ▸ (keyed_meetPairs h hmeet).put (show Draft.Keyed (.pairs pairs) from True.intro) place
  . contradiction

theorem keyed_fillAll {rounds : Nat} (h : b.Keyed) (hfill : fillAll rounds b = .ok b')
    : b'.Keyed := by
  induction rounds generalizing b with
  | zero =>
    injection hfill with hfill
    exact hfill ▸ h
  | succ rounds ih =>
    unfold fillAll at hfill
    split at hfill
    . injection hfill with hfill
      exact hfill ▸ h
    . rw [Outcome.bind_eq_ok] at hfill
      obtain ⟨between, hround, hfill⟩ := hfill
      refine ih ?_ hfill
      exact Outcome.foldlM_preserves (fun _ _ _ h hfill => keyed_fill h hfill)
        (P := Keyed) (s := { b with unfilled := [] }) h hround

theorem run_bind {σ α β : Type} (x : StateM σ α) (f : α → StateM σ β) (s : σ)
    : (x >>= f).run s = (f (x.run s).1).run (x.run s).2 := by
  rfl

theorem keyed_unroll {fuel : Nat} {known : Array (Option Value)} {t : Table Value} (h : b.Keyed)
    (hknown : known.getD place none = none)
    (hunroll : ((b.unroll (fuel + 1) [] place).run known).1.1 = .object t) : t.Keyed := by
  -- Whether the outcome is remembered for the place has no bearing on the outcome.
  have hremembered : ∀ (x : Unrolled) (known : Array (Option Value)),
      ((if x.2 = true then do
          modify fun known => known.setIfInBounds place (some x.1)
          pure (x.1, x.2)
        else pure (x.1, x.2) : StateM (Array (Option Value)) Unrolled).run known).1 = x := by
    intro x known
    split
    . rfl
    . rfl
  unfold unroll at hunroll
  rw [List.contains_nil, if_neg Bool.false_ne_true, StateT.run_bind, StateT.run_get, pure_bind]
    at hunroll
  dsimp only at hunroll
  rw [hknown] at hunroll
  dsimp only at hunroll
  split at hunroll
  . next v hdraft =>
    rw [pure_bind, hremembered] at hunroll
    exact absurd hunroll (h place _ hdraft t)
  . rw [pure_bind, hremembered] at hunroll
    contradiction
  . rw [run_bind, pure_bind, hremembered] at hunroll
    contradiction
  . rw [run_bind, run_bind, pure_bind, hremembered] at hunroll
    contradiction
  . next entries hdraft =>
    rw [run_bind, pure_bind, hremembered] at hunroll
    injection hunroll with hunroll
    have hentries : entries.Keyed := h place _ hdraft
    exact hunroll ▸ hentries.zip _ Prod.fst
  . rw [pure_bind, hremembered] at hunroll
    contradiction

end Building

theorem getD_replicate_none {α : Type} (n place : Nat)
    : (Array.replicate n (none : Option α)).getD place none = none := by
  rw [Array.getD_eq_getD_getElem?, Array.getElem?_replicate]
  split
  . rfl
  . rfl

theorem keyed_of_value {d : Document} {t : Table Value} (h : d.value = .ok (.object t))
    : t.Keyed := by
  unfold Document.value at h
  simp only [Outcome.bind_eq_ok, Except.ok.injEq] at h
  obtain ⟨met, hmet, filled, hfilled, hunroll⟩ := h
  have hempty : Building.Keyed { graph := d.graph, drafts := Array.replicate d.graph.size none } := by
    intro place draft hdraft
    rw [Building.draft?, getD_replicate_none] at hdraft
    contradiction
  have hfair := Building.keyed_fillAll (Building.keyed_meet hempty hmet) hfilled
  exact Building.keyed_unroll hfair (getD_replicate_none _ _) hunroll

/--
A mapping that a settings file holds has every key once.
-/
theorem keyed_of_parse {text : List Char} {t : Table Value} (h : parse text = .ok (.object t))
    : t.Keyed := by
  unfold parse at h
  rw [Outcome.bind_eq_ok] at h
  obtain ⟨document, -, h⟩ := h
  cases document with
  | none =>
    injection h with h
    contradiction
  | some d => exact keyed_of_value h

end Yaml

end ApiElements
