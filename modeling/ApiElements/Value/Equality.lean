import ApiElements.Value.Basic

/-!
This module contains the equality of values, and which values may serve as keys. Numbers are equal
if their exact values are, and moments if their instants are; objects and sets do not depend on an
order, and a list never equals a tuple.
-/

namespace ApiElements

mutual

def Value.same : Value → Value → Bool
  | .null, .null => true
  | .text s, .text t => s == t
  | .bytes xs, .bytes ys => xs == ys
  | .moment x, .moment y => x.instant == y.instant
  | .list xs, .list ys => Value.sameItems xs ys
  | .tuple xs, .tuple ys => Value.sameItems xs ys
  | .set xs, .set ys => xs.length == ys.length && Value.itemsWithin xs ys
  | .object xs, .object ys => xs.length == ys.length && Value.entriesWithin xs ys
  | .element x, .element y => Element.same x y
  | .member k v, .member k' v' => Value.same k k' && Value.same v v'
  | .ref h, .ref h' => Value.same h h'
  -- What is left to be equal are numbers, truth values among them.
  | x, y =>
    match x.number?, y.number? with
    | some p, some q => p == q
    | _, _ => false
termination_by structural x => x

def Value.sameItems : List Value → List Value → Bool
  | [], [] => true
  | x :: xs, y :: ys => Value.same x y && Value.sameItems xs ys
  | _, _ => false
termination_by structural xs => xs

def Value.itemsWithin : List Value → List Value → Bool
  | [], _ => true
  | x :: xs, ys => ys.any (fun y => Value.same x y) && Value.itemsWithin xs ys
termination_by structural xs => xs

def Value.entriesWithin : List (Value × Value) → List (Value × Value) → Bool
  | [], _ => true
  | (k, v) :: xs, ys =>
    (match ys.find? (fun entry => Value.same k entry.1) with
      | some entry => Value.same v entry.2
      | none => false) && Value.entriesWithin xs ys
termination_by structural xs => xs

def Element.same : Element → Element → Bool
  | .mk kind info attributes content, .mk kind' info' attributes' content' =>
    Kind.same kind kind' && Value.same info info' && Value.same attributes attributes' &&
      Value.same content content'
termination_by structural x => x

def Kind.same : Kind → Kind → Bool
  | .named x, .named y => Value.same x y
  | .custom name tag, .custom name' tag' => name == name' && tag == tag'
  | .boolean, .boolean => true
  | .string, .string => true
  | .number, .number => true
  | .enum, .enum => true
  | .array, .array => true
  | .object, .object => true
  | .option, .option => true
  | .select, .select => true
  | .member, .member => true
  | .ref, .ref => true
  | _, _ => false
termination_by structural x => x

end

mutual

/--
Whether a value may be a key of an object or an item of a set: lists, sets and objects may not, and
neither may anything that holds one of them, or a signaling decimal.
-/
def Value.hashable : Value → Bool
  | .list _ => false
  | .set _ => false
  | .object _ => false
  | .loop => false
  | .decimal d => !d.isSignaling
  | .tuple items => Value.allHashable items
  | .element e => Element.hashable e
  | .member key value => Value.hashable key && Value.hashable value
  | .ref href => Value.hashable href
  | _ => true
termination_by structural x => x

def Value.allHashable : List Value → Bool
  | [] => true
  | x :: xs => Value.hashable x && Value.allHashable xs
termination_by structural xs => xs

def Element.hashable : Element → Bool
  | .mk kind info attributes content =>
    Kind.hashable kind && Value.hashable info && Value.hashable attributes &&
      Value.hashable content
termination_by structural x => x

def Kind.hashable : Kind → Bool
  | .named typeName => Value.hashable typeName
  | _ => true
termination_by structural x => x

end

namespace Value

def memberOf (x : Value) (items : List Value) : Bool :=
  items.any fun item => x.same item

def distinct (items : List Value) : List Value :=
  items.foldl (fun kept x => if x.memberOf kept then kept else kept ++ [x]) []

end Value

end ApiElements
