import ApiElements.Payload.Decorate
import ApiElements.Proofs.Table

/-!
This module contains what a change of all payloads of an API leads to unless it is stopped: each
payload becomes what it would become by itself, and all else stays as it is. If that is not changed
any further, then neither is the API.
-/

namespace ApiElements

variable {α β : Type}

namespace Value

/--
The items of the list under a name; nothing else has any.
-/
def listed (name : String) (v : Value) : List Value :=
  match v with
  | .object entries =>
    match Table.get? entries (.text name) with
    | some (.list items) => items
    | _ => []
  | _ => []

def mapListed (name : String) (f : Value → Value) (v : Value) : Value :=
  match v with
  | .object entries =>
    match Table.get? entries (.text name) with
    | some (.list items) => .object (Table.put entries (.text name) (.list (items.map f)))
    | _ => v
  | _ => v

section Listed

variable {t : Table Value} {name : String} {items : List Value}

theorem listed_of_get? (h : t.get? (.text name) = some (.list items))
    : (Value.object t).listed name = items := by
  rw [listed]
  simp only [h]

theorem listed_of_no_list (h : ∀ items, t.get? (.text name) ≠ some (.list items))
    : (Value.object t).listed name = [] := by
  rw [listed]
  split
  . next items hitems => exact absurd hitems (h items)
  . rfl

theorem listed_of_no_object {v : Value} (h : ∀ t, v ≠ .object t) : v.listed name = [] := by
  unfold listed
  split
  . next t => exact absurd rfl (h t)
  . rfl

theorem mapListed_of_get? (h : t.get? (.text name) = some (.list items)) (f : Value → Value)
    : (Value.object t).mapListed name f = .object (t.put (.text name) (.list (items.map f))) := by
  rw [mapListed]
  simp only [h]

theorem mapListed_of_no_list (h : ∀ items, t.get? (.text name) ≠ some (.list items))
    (f : Value → Value) : (Value.object t).mapListed name f = .object t := by
  rw [mapListed]
  split
  . next items hitems => exact absurd hitems (h items)
  . rfl

theorem mapListed_congr {v : Value} {f g : Value → Value} (h : ∀ x ∈ v.listed name, f x = g x)
    : v.mapListed name f = v.mapListed name g := by
  unfold mapListed
  split
  . split
    . next items hitems =>
      rw [listed_of_get? hitems] at h
      rw [List.map_congr_left h]
    . rfl
  . rfl

theorem listed_put_of_ne {other : String} (h : other ≠ name) (x : Value)
    : (Value.object (t.put (.text other) x)).listed name = (Value.object t).listed name := by
  rw [listed, listed, Table.get?_put_text_of_ne t h]

theorem listed_mapListed (f : Value → Value) (v : Value)
    : (v.mapListed name f).listed name = (v.listed name).map f := by
  unfold mapListed
  split
  . split
    . next items hitems =>
      rw [listed_of_get? hitems, listed_of_get? (Table.get?_put_text _ _)]
    . next hnone =>
      rw [listed_of_no_list hnone, List.map_nil]
  . next hobject => rw [listed_of_no_object hobject, List.map_nil]

theorem field_mapListed_of_ne {other : String} (h : other ≠ name) (f : Value → Value) (v : Value)
    : (v.mapListed other f).field name = v.field name := by
  unfold mapListed
  split
  . split
    . rw [field, field, Table.get?_put_text_of_ne _ h]
    . rfl
  . rfl

theorem listed_mapListed_of_ne {other : String} (h : other ≠ name) (f : Value → Value) (v : Value)
    : (v.mapListed other f).listed name = v.listed name := by
  unfold mapListed
  split
  . split
    . exact listed_put_of_ne h _
    . rfl
  . rfl

end Listed

end Value

namespace Payload

/--
What a change has led to, unless it was stopped.
-/
def Change.reached (c : Change α) : Option α :=
  match c.stopped with
  | none => some c.now
  | some _ => none

namespace Change

variable {c : Change α} {a : α}

theorem reached_eq_some : c.reached = some a ↔ c.stopped = none ∧ c.now = a := by
  unfold reached
  split
  . next h => simp [h]
  . next h => simp [h]

theorem reached_map (c : Change α) (f : α → β) : (c.map f).reached = c.reached.map f := by
  unfold map reached
  cases c.stopped with
  | none => rfl
  | some fault => rfl

theorem reached_andThen (c : Change α) (f : α → Change α)
    : (c.andThen f).reached = c.reached.bind fun a => (f a).reached := by
  unfold andThen reached
  cases hstopped : c.stopped with
  | none => rfl
  | some fault => simp [hstopped]

theorem reached_foldl (step : α → β → Change α) (items : List β) (c : Change α)
    : (items.foldl (fun change item => change.andThen fun a => step a item) c).reached
        =
      c.reached.bind fun a => items.foldlM (fun a item => (step a item).reached) a := by
  induction items generalizing c with
  | nil => simp
  | cons item rest ih =>
    rw [List.foldl_cons, ih, reached_andThen, Option.bind_assoc]
    rfl

theorem reached_after_eq_some {x : Logged β} {now : α} {f : β → Change α}
    : (Change.after now x f).reached = some a
        ↔
      ∃ b, x.result = .ok b ∧ (f b).reached = some a := by
  unfold Change.after
  cases x.result with
  | ok b => simp [reached]
  | error fault => simp [reached, stop]

theorem reached_after_of_ok {x : Logged β} {b : β} (h : x.result = .ok b) (now : α)
    (f : β → Change α) : (Change.after now x f).reached = (f b).reached := by
  unfold Change.after
  rw [h]
  rfl

theorem reached_each {change : α → Change α} {xs ys : List α}
    : (each change xs).reached = some ys
        ↔
      (∀ x ∈ xs, (change x).stopped = none) ∧ xs.map (fun x => (change x).now) = ys := by
  induction xs generalizing ys with
  | nil => simp [each, reached]
  | cons x xs ih =>
    have hrest := @ih (each change xs).now
    rw [reached_eq_some] at hrest
    rw [each, reached_eq_some, List.forall_mem_cons, List.map_cons]
    cases (change x).stopped with
    | some fault => simp
    | none =>
      dsimp only
      constructor
      . rintro ⟨hstopped, rfl⟩
        obtain ⟨hall, hnow⟩ := hrest.1 ⟨hstopped, rfl⟩
        exact ⟨⟨rfl, hall⟩, by rw [hnow]⟩
      . rintro ⟨⟨-, hall⟩, rfl⟩
        obtain ⟨hstopped, hnow⟩ := (@ih _).2 ⟨hall, rfl⟩ |> reached_eq_some.1
        exact ⟨hstopped, by rw [hnow]⟩

def Idle (change : α → Change α) (x : α) : Prop :=
  (change x).reached = some x

end Change

open Change (Idle reached_eq_some reached_map reached_andThen reached_each)

section Field

variable {change : Value → Change Value} {v w : Value} {t : Table Value} {name : String}
variable {items : List Value}

theorem reached_changeItems_list
    : (changeItems change (.list items)).reached = some w
        ↔
      (∀ x ∈ items, (change x).stopped = none)
        ∧ .list (items.map fun x => (change x).now) = w := by
  unfold changeItems
  cases items with
  | nil => simp [Value.truthy, Change.reached]
  | cons x xs =>
    simp only [Value.truthy, List.isEmpty_cons, Bool.not_false, if_true, reached_map,
      Option.map_eq_some_iff, reached_each, and_assoc, exists_and_left, exists_eq_left']

theorem reached_changeItems_of_no_list (hv : ∀ items, v ≠ .list items)
    (h : (changeItems change v).reached = some w) : w = v := by
  unfold changeItems at h
  split at h
  . split at h
    . exact absurd rfl (hv _)
    . split at h
      . contradiction
      . exact (reached_eq_some.1 h).2.symm
  . exact (reached_eq_some.1 h).2.symm

theorem reached_changeField_list (hitems : t.get? (.text name) = some (.list items))
    : (changeField name change (.object t)).reached = some w
        ↔
      (∀ x ∈ items, (change x).stopped = none)
        ∧ .object (t.put (.text name) (.list (items.map fun x => (change x).now))) = w := by
  simp only [changeField, hitems, reached_map, Option.map_eq_some_iff, reached_changeItems_list,
    and_assoc, exists_and_left, exists_eq_left']

theorem reached_changeField_of_no_list (hnone : ∀ items, t.get? (.text name) ≠ some (.list items))
    (h : (changeField name change (.object t)).reached = some w) : w = .object t := by
  unfold changeField at h
  dsimp only at h
  split at h
  . exact (reached_eq_some.1 h).2.symm
  . next field hfield =>
    rw [reached_map, Option.map_eq_some_iff] at h
    obtain ⟨field', hreached, rfl⟩ := h
    have hsame := reached_changeItems_of_no_list (fun items heq => hnone items (heq ▸ hfield)) hreached
    rw [hsame, Table.put_of_get? hfield]

/--
Unless it is stopped, the change of a field changes each item of its list by itself.
-/
theorem reached_changeField (h : (changeField name change v).reached = some w)
    : (∀ x ∈ v.listed name, (change x).stopped = none)
        ∧ w = v.mapListed name fun x => (change x).now := by
  cases v with
  | object t =>
    by_cases hlist : ∃ items, Table.get? t (.text name) = some (.list items)
    . obtain ⟨items, hitems⟩ := hlist
      rw [Value.listed_of_get? hitems, Value.mapListed_of_get? hitems, eq_comm (a := w)]
      exact (reached_changeField_list hitems).1 h
    . rw [not_exists] at hlist
      rw [Value.listed_of_no_list hlist, Value.mapListed_of_no_list hlist]
      exact ⟨by simp, reached_changeField_of_no_list hlist h⟩
  | _ => contradiction

theorem idle_changeField (h : (changeField name change v).reached = some w)
    (hitems : ∀ x ∈ v.listed name, Idle change (change x).now)
    : Idle (changeField name change) w := by
  cases v with
  | object t =>
    by_cases hlist : ∃ items, Table.get? t (.text name) = some (.list items)
    . obtain ⟨items, hget⟩ := hlist
      rw [Value.listed_of_get? hget] at hitems
      obtain ⟨-, rfl⟩ := (reached_changeField_list hget).1 h
      rw [Idle, reached_changeField_list (Table.get?_put_text t _), Table.put_put, List.map_map,
        List.forall_mem_map]
      simp only [Idle, reached_eq_some] at hitems
      refine ⟨fun x hx => (hitems x hx).1, ?_⟩
      congr 3
      exact List.map_congr_left fun x hx => (hitems x hx).2
    . rw [not_exists] at hlist
      have hsame := reached_changeField_of_no_list hlist h
      rw [hsame] at h ⊢
      exact h
  | _ => contradiction

theorem idle_changeField_iff
    : Idle (changeField name change) (.object t)
        ↔
      ∀ field, t.get? (.text name) = some field → Idle (changeItems change) field := by
  unfold Idle changeField
  dsimp only
  cases hget : t.get? (.text name) with
  | none => simp [Change.reached]
  | some field =>
    simp only [reached_map, Option.map_eq_some_iff, Value.object.injEq, Option.some.injEq,
      forall_eq']
    constructor
    . rintro ⟨field', hreached, heq⟩
      have hfield' := Table.get?_put_text (s := name) t field'
      rw [heq, hget, Option.some.injEq] at hfield'
      rw [hreached, hfield']
    . exact fun hreached => ⟨field, hreached, Table.put_of_get? hget⟩

theorem idle_changeField_put_of_ne {other : String} (h : other ≠ name) (x : Value)
    : Idle (changeField name change) (.object (t.put (.text other) x))
        ↔
      Idle (changeField name change) (.object t) := by
  rw [idle_changeField_iff, idle_changeField_iff, Table.get?_put_text_of_ne t h]

theorem exists_object_of_changeField (h : (changeField name change v).reached = some w)
    : ∃ t, v = .object t := by
  cases v with
  | object t => exact ⟨t, rfl⟩
  | _ => contradiction

/--
The change of a field leaves all other fields as they are, whether or not it is stopped.
-/
theorem exists_put_changeField (name : String) (change : Value → Change Value) (t : Table Value)
    : (changeField name change (.object t)).now = .object t
        ∨ ∃ x, (changeField name change (.object t)).now = .object (t.put (.text name) x) := by
  unfold changeField
  dsimp only
  split
  . exact .inl rfl
  . exact .inr ⟨_, rfl⟩

end Field

section Payloads

variable {decorate change : Value → Change Value} {found : Value → List Value}
variable {mapped : Value → Value} {api api' : Value}

def payloads (api : Value) : List Value :=
  (api.listed "resourceGroups").flatMap fun group =>
    (group.listed "resources").flatMap fun resource =>
      (resource.listed "actions").flatMap fun action =>
        (action.listed "examples").flatMap fun sample =>
          sample.listed "requests" ++ sample.listed "responses"

def mapPayloads (f : Value → Value) (api : Value) : Value :=
  api.mapListed "resourceGroups" <| Value.mapListed "resources" <| Value.mapListed "actions" <|
    Value.mapListed "examples" fun sample =>
      (sample.mapListed "requests" f).mapListed "responses" f

theorem payloads_mapPayloads (f : Value → Value) (api : Value)
    : payloads (mapPayloads f api) = (payloads api).map f := by
  have hrequests := Value.listed_mapListed_of_ne (show "responses" ≠ "requests" by decide) f
  have hresponses := Value.listed_mapListed_of_ne (show "requests" ≠ "responses" by decide) f
  unfold payloads mapPayloads
  simp only [Value.listed_mapListed, hrequests, hresponses, List.flatMap_map, List.map_flatMap,
    List.map_append]

/--
A change goes through the payloads that are found in a thing: unless it is stopped, none of them
stops it, it leads to a mapped thing, and it is idle there if each payload is left as it has become.
-/
structure Walks (decorate change : Value → Change Value) (found : Value → List Value)
    (mapped : Value → Value) : Prop where
  stopped : ∀ v w, (change v).reached = some w → ∀ p ∈ found v, (decorate p).stopped = none
  now : ∀ v w, (change v).reached = some w → w = mapped v
  idle : ∀ v w, (change v).reached = some w → (∀ p ∈ found v, Idle decorate (decorate p).now) →
    Idle change w

theorem walks_self (decorate : Value → Change Value)
    : Walks decorate decorate (fun p => [p]) fun p => (decorate p).now where
  stopped := by
    intro v w h
    simpa using (reached_eq_some.1 h).1
  now := fun v w h => (reached_eq_some.1 h).2.symm
  idle := by
    intro v w h hidle
    rw [← (reached_eq_some.1 h).2]
    exact hidle v (by simp)

theorem Walks.field (h : Walks decorate change found mapped) (name : String)
    : Walks decorate (changeField name change) (fun v => (v.listed name).flatMap found)
        (Value.mapListed name mapped) where
  stopped := by
    intro v w hreached p hp
    obtain ⟨x, hx, hp⟩ := List.mem_flatMap.1 hp
    have hstopped := (reached_changeField hreached).1 x hx
    exact h.stopped x _ (reached_eq_some.2 ⟨hstopped, rfl⟩) p hp
  now := by
    intro v w hreached
    obtain ⟨hstopped, rfl⟩ := reached_changeField hreached
    apply Value.mapListed_congr
    exact fun x hx => h.now x _ (reached_eq_some.2 ⟨hstopped x hx, rfl⟩)
  idle := by
    intro v w hreached hidle
    apply idle_changeField hreached
    intro x hx
    have hstopped := (reached_changeField hreached).1 x hx
    apply h.idle x _ (reached_eq_some.2 ⟨hstopped, rfl⟩)
    exact fun p hp => hidle p (List.mem_flatMap.2 ⟨x, hx, hp⟩)

theorem walks_decorateExample (decorate : Value → Change Value)
    : Walks decorate (decorateExample decorate)
        (fun sample => sample.listed "requests" ++ sample.listed "responses")
        (fun sample => (sample.mapListed "requests" fun p => (decorate p).now).mapListed "responses"
          fun p => (decorate p).now) := by
  have hne : "requests" ≠ "responses" := by decide
  have hrequests := (walks_self decorate).field "requests"
  have hresponses := (walks_self decorate).field "responses"
  simp only [List.flatMap_singleton'] at hrequests hresponses
  have hbetween : ∀ v w, (decorateExample decorate v).reached = some w → ∃ u,
      (changeField "requests" decorate v).reached = some u
        ∧ (changeField "responses" decorate u).reached = some w
        ∧ u.listed "responses" = v.listed "responses" := by
    intro v w h
    unfold decorateExample at h
    rw [reached_andThen, Option.bind_eq_some_iff] at h
    obtain ⟨u, hu, hw⟩ := h
    refine ⟨u, hu, hw, ?_⟩
    rw [hrequests.now v u hu, Value.listed_mapListed_of_ne hne]
  constructor
  . intro v w h p hp
    obtain ⟨u, hu, hw, hlisted⟩ := hbetween v w h
    rcases List.mem_append.1 hp with hp | hp
    . exact hrequests.stopped v u hu p hp
    . exact hresponses.stopped u w hw p (hlisted ▸ hp)
  . intro v w h
    obtain ⟨u, hu, hw, -⟩ := hbetween v w h
    rw [hresponses.now u w hw, hrequests.now v u hu]
  . intro v w h hidle
    obtain ⟨u, hu, hw, hlisted⟩ := hbetween v w h
    rw [List.forall_mem_append] at hidle
    have hidle' := hresponses.idle u w hw (hlisted ▸ hidle.2)
    -- The responses stand under another name, so that the requests are still as they have become.
    have hfirst : Idle (changeField "requests" decorate) w := by
      have hidle := hrequests.idle v u hu hidle.1
      obtain ⟨t, rfl⟩ := exists_object_of_changeField hw
      rcases exists_put_changeField "responses" decorate t with heq | ⟨x, heq⟩
      . rw [(reached_eq_some.1 hw).2] at heq
        rw [heq]
        exact hidle
      . rw [(reached_eq_some.1 hw).2] at heq
        rw [heq, idle_changeField_put_of_ne hne.symm]
        exact hidle
    unfold Idle at hfirst hidle' ⊢
    rw [decorateExample, reached_andThen, hfirst, Option.bind_some, hidle']

theorem walks_decorateAll (decorate : Value → Change Value)
    : Walks decorate (decorateAll decorate) payloads
        (mapPayloads fun payload => (decorate payload).now) := by
  exact ((((walks_decorateExample decorate).field "examples").field "actions").field
    "resources").field "resourceGroups"

end Payloads

end Payload

end ApiElements
