import ApiElements.Value.Access

/-!
This module contains the order of values. Numbers are ordered by their exact values, texts by their
characters, bytes and lists by the first items that differ, and moments of one sort by time; values of
different forms have no order, and neither have decimals that are not numbers.
-/

namespace ApiElements

def Value.isMissingDecimal : Value → Bool
  | .decimal (.nan _ _ _ _) => true
  | _ => false

mutual

def Value.before : Value → Value → Except Fault Bool
  | .text s, .text t => .ok (s < t)
  | .bytes xs, .bytes ys => .ok (xs < ys)
  | .list xs, .list ys => Value.beforeItems xs ys
  | .tuple xs, .tuple ys => Value.beforeItems xs ys
  | .moment x, .moment y =>
    match x.before? y with
    | some first => .ok first
    | none => .error (.mismatch .unordered)
  | x, y =>
    match x.number?, y.number? with
    | some p, some q =>
      if x.isMissingDecimal || y.isMissingDecimal then .error .invalidDecimal else .ok (p.lt q)
    | _, _ => .error (.mismatch .unordered)
termination_by structural x => x

def Value.beforeItems : List Value → List Value → Except Fault Bool
  | [], ys => .ok (!ys.isEmpty)
  | _ :: _, [] => .ok false
  | x :: xs, y :: ys => if x.same y then Value.beforeItems xs ys else Value.before x y
termination_by structural xs => xs

end

namespace Value

/--
Puts a value behind all that do not come after it.
-/
def insertSorted (x : Value) : List Value → Except Fault (List Value)
  | [] => .ok [x]
  | y :: ys => do
    if ← x.before y then .ok (x :: y :: ys)
    else .ok (y :: (← insertSorted x ys))

/--
The items in ascending order; equal ones keep theirs.
-/
def sort (items : List Value) : Except Fault (List Value) :=
  items.foldlM (fun sorted x => insertSorted x sorted) []

end Value

end ApiElements
