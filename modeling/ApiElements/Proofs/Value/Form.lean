import ApiElements.Value.Equality

/-!
This module contains the forms of values that may serve as keys: two of them are equal as keys
exactly if they have one form, so that equality of keys is an equivalence.
-/

namespace ApiElements

/--
What counts of a value when keys are compared. All numbers of one exact value have one form, and so
have all moments of one instant.
-/
inductive Form where
  | null
  | number (x : Exact)
  | text (s : String)
  | bytes (data : List UInt8)
  | instant (x : Instant)
  | tuple (items : List Form)
  | element (kind info attributes content : Form)
  | kind (name tag : String)
  | named (typeName : Form)
  | member (key value : Form)
  | ref (href : Form)
  | none

mutual

def Value.form : Value → Form
  | .null => .null
  | .bool b => .number (Exact.ofBool b)
  | .int n => .number (Exact.ofInt n)
  | .double d => .number (Exact.ofDouble d)
  | .decimal d => .number (Exact.ofDecimal d)
  | .text s => .text s
  | .bytes data => .bytes data
  | .moment m => .instant m.instant
  | .list _ => .none
  | .tuple items => .tuple (Value.formItems items)
  | .set _ => .none
  | .object _ => .none
  | .element e => Element.form e
  | .member key value => .member (Value.form key) (Value.form value)
  | .ref href => .ref (Value.form href)
  | .loop => .none
termination_by structural v => v

def Value.formItems : List Value → List Form
  | [] => []
  | x :: xs => Value.form x :: Value.formItems xs
termination_by structural xs => xs

def Element.form : Element → Form
  | .mk kind info attributes content =>
    .element (Kind.form kind) (Value.form info) (Value.form attributes) (Value.form content)
termination_by structural e => e

def Kind.form : Kind → Form
  | .named typeName => .named (Value.form typeName)
  | .custom name tag => .kind name tag
  | .boolean => .text "boolean"
  | .string => .text "string"
  | .number => .text "number"
  | .enum => .text "enum"
  | .array => .text "array"
  | .object => .text "object"
  | .option => .text "option"
  | .select => .text "select"
  | .member => .text "member"
  | .ref => .text "ref"
termination_by structural k => k

end

namespace Value

theorem same_of_number? {x : Value} {p : Exact} (h : x.number? = some p) (y : Value)
    : x.same y
        =
      (match x.number?, y.number? with
      | some p, some q => p == q
      | _, _ => false) := by
  cases x with
  | bool b => cases y with
    | _ => rfl
  | int n => cases y with
    | _ => rfl
  | double d => cases y with
    | _ => rfl
  | decimal d => cases y with
    | _ => rfl
  | _ => simp [Value.number?] at h

theorem same_iff_of_number? {x : Value} {p : Exact} (h : x.number? = some p) (y : Value)
    : x.same y = true ↔ y.number? = some p := by
  rw [same_of_number? h, h]
  cases y.number? with
  | none => simp
  | some q =>
    dsimp only
    rw [beq_iff_eq, Option.some.injEq]
    exact eq_comm

theorem form_eq_number {x : Value} {p : Exact} : x.form = .number p ↔ x.number? = some p := by
  cases x with
  | element e => cases e with
    | _ => simp [Value.form, Element.form, Value.number?]
  | _ => simp [Value.form, Value.number?]

theorem same_iff_form_of_number? {x : Value} {p : Exact} (h : x.number? = some p) (y : Value)
    : x.same y = true ↔ x.form = y.form := by
  rw [same_iff_of_number? h, form_eq_number.2 h, ← form_eq_number]
  exact eq_comm

end Value

theorem Kind.same_iff_form_of_ne_named {k : Kind} (h : ∀ typeName, k ≠ .named typeName) (k' : Kind)
    : k.same k' = true ↔ k.form = k'.form := by
  cases k with
  | named typeName => exact absurd rfl (h typeName)
  | _ => cases k' with
    | _ => simp [Kind.same, Kind.form]

mutual

/--
A value that may serve as a key is equal to exactly those of its form.
-/
theorem Value.same_iff_form : ∀ (x : Value), x.hashable = true → ∀ y : Value,
    x.same y = true ↔ x.form = y.form
  | .null, _, y => by
    cases y with
    | element e => cases e with
      | _ => simp [Value.same, Value.form, Element.form, Value.number?]
    | _ => simp [Value.same, Value.form, Value.number?]
  | .tuple items, h, y => by
    rw [Value.hashable] at h
    cases y with
    | tuple items' => simp [Value.same, Value.form, Value.sameItems_iff_form items h items']
    | element e => cases e with
      | _ => simp [Value.same, Value.form, Element.form, Value.number?]
    | _ => simp [Value.same, Value.form, Value.number?]
  | .bool b, _, y => Value.same_iff_form_of_number? rfl y
  | .int n, _, y => Value.same_iff_form_of_number? rfl y
  | .double d, _, y => Value.same_iff_form_of_number? rfl y
  | .decimal d, _, y => Value.same_iff_form_of_number? rfl y
  | .text s, _, y => by
    cases y with
    | element e => cases e with
      | _ => simp [Value.same, Value.form, Element.form, Value.number?]
    | _ => simp [Value.same, Value.form, Value.number?]
  | .bytes data, _, y => by
    cases y with
    | element e => cases e with
      | _ => simp [Value.same, Value.form, Element.form, Value.number?]
    | _ => simp [Value.same, Value.form, Value.number?]
  | .moment m, _, y => by
    cases y with
    | element e => cases e with
      | _ => simp [Value.same, Value.form, Element.form, Value.number?]
    | _ => simp [Value.same, Value.form, Value.number?]
  | .element e, h, y => by
    rw [Value.hashable] at h
    have hform : ∀ v, Value.form (.element e) = v ↔ e.form = v := by simp [Value.form]
    rw [hform]
    cases y with
    | element e' => simp [Value.same, Value.form, Element.same_iff_form e h e']
    | _ => cases e with
      | _ => simp [Value.same, Value.form, Element.form, Value.number?]
  | .member key value, h, y => by
    rw [Value.hashable, Bool.and_eq_true] at h
    cases y with
    | member key' value' =>
      simp [Value.same, Value.form, Value.same_iff_form key h.1 key',
        Value.same_iff_form value h.2 value']
    | element e => cases e with
      | _ => simp [Value.same, Value.form, Element.form, Value.number?]
    | _ => simp [Value.same, Value.form, Value.number?]
  | .ref href, h, y => by
    rw [Value.hashable] at h
    cases y with
    | ref href' => simp [Value.same, Value.form, Value.same_iff_form href h href']
    | element e => cases e with
      | _ => simp [Value.same, Value.form, Element.form, Value.number?]
    | _ => simp [Value.same, Value.form, Value.number?]

theorem Value.sameItems_iff_form : ∀ (xs : List Value), Value.allHashable xs = true →
    ∀ ys : List Value, Value.sameItems xs ys = true ↔ Value.formItems xs = Value.formItems ys
  | [], _, ys => by
    cases ys with
    | nil => simp [Value.sameItems, Value.formItems]
    | cons y ys => simp [Value.sameItems, Value.formItems]
  | x :: xs, h, ys => by
    rw [Value.allHashable, Bool.and_eq_true] at h
    cases ys with
    | nil => simp [Value.sameItems, Value.formItems]
    | cons y ys =>
      simp [Value.sameItems, Value.formItems, Value.same_iff_form x h.1 y,
        Value.sameItems_iff_form xs h.2 ys]

theorem Element.same_iff_form : ∀ (e : Element), e.hashable = true → ∀ e' : Element,
    e.same e' = true ↔ e.form = e'.form
  | .mk kind info attributes content, h, .mk kind' info' attributes' content' => by
    simp only [Element.hashable, Bool.and_eq_true] at h
    simp [Element.same, Element.form, Kind.same_iff_form kind h.1.1.1 kind',
      Value.same_iff_form info h.1.1.2 info', Value.same_iff_form attributes h.1.2 attributes',
      Value.same_iff_form content h.2 content', and_assoc]

theorem Kind.same_iff_form : ∀ (k : Kind), k.hashable = true → ∀ k' : Kind,
    k.same k' = true ↔ k.form = k'.form
  | .named typeName, h, k' => by
    rw [Kind.hashable] at h
    cases k' with
    | named typeName' => simp [Kind.same, Kind.form, Value.same_iff_form typeName h typeName']
    | _ => simp [Kind.same, Kind.form]
  | .custom name tag, _, k' => Kind.same_iff_form_of_ne_named (by simp) k'
  | .boolean, _, k' => Kind.same_iff_form_of_ne_named (by simp) k'
  | .string, _, k' => Kind.same_iff_form_of_ne_named (by simp) k'
  | .number, _, k' => Kind.same_iff_form_of_ne_named (by simp) k'
  | .enum, _, k' => Kind.same_iff_form_of_ne_named (by simp) k'
  | .array, _, k' => Kind.same_iff_form_of_ne_named (by simp) k'
  | .object, _, k' => Kind.same_iff_form_of_ne_named (by simp) k'
  | .option, _, k' => Kind.same_iff_form_of_ne_named (by simp) k'
  | .select, _, k' => Kind.same_iff_form_of_ne_named (by simp) k'
  | .member, _, k' => Kind.same_iff_form_of_ne_named (by simp) k'
  | .ref, _, k' => Kind.same_iff_form_of_ne_named (by simp) k'

end

namespace Value

variable {x y z : Value}

theorem same_self (h : x.hashable = true) : x.same x = true := by
  rw [same_iff_form x h]

theorem same_congr (hx : x.hashable = true) (hy : y.hashable = true) (h : x.same y = true)
    (z : Value) : x.same z = y.same z := by
  rw [Bool.eq_iff_iff, same_iff_form x hx, same_iff_form y hy, (same_iff_form x hx y).1 h]

end Value

end ApiElements
