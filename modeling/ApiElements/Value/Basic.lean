import ApiElements.Number.Exact
import ApiElements.Time.Moment

/-!
This module contains the values that element trees are made of, and the trees themselves. A tree and
the data in it refer to each other: data may hold elements, and the parts of an element are data.
-/

namespace ApiElements

mutual

/--
A value. Lists, tuples and sets keep the order of their items, objects the order of their entries;
the keys of an object are values too. Two of the forms stand only as the content of an element:
`member`, a key with a value that is `null` if there is none, and `ref`, a target. Where a
collection stands within itself, `loop` is in its place.
-/
inductive Value where
  | null
  | bool (b : Bool)
  | int (n : Int)
  | double (d : Double)
  | decimal (d : Decimal)
  | text (s : String)
  | bytes (data : List UInt8)
  | moment (m : Moment)
  | list (items : List Value)
  | tuple (items : List Value)
  | set (items : List Value)
  | object (entries : List (Value × Value))
  | element (e : Element)
  | member (key value : Value)
  | ref (href : Value)
  | loop

/--
An element of an API description: its kind, descriptive data such as an identifier, attributes, and
a content that is `null` if there is none.
-/
inductive Element where
  | mk (kind : Kind) (info attributes content : Value)

/--
The kind of an element: one of those that every description has, a reference to a type declared
elsewhere, or a kind registered under a tag of its own.
-/
inductive Kind where
  | boolean
  | string
  | number
  | enum
  | array
  | object
  | option
  | select
  | member
  | ref
  | named (typeName : Value)
  | custom (name tag : String)

end

instance : Inhabited Value := ⟨.null⟩

instance : Inhabited Element := ⟨.mk .boolean .null .null .null⟩

namespace Element

def kind : Element → Kind
  | .mk kind _ _ _ => kind

def info : Element → Value
  | .mk _ info _ _ => info

def attributes : Element → Value
  | .mk _ _ attributes _ => attributes

def content : Element → Value
  | .mk _ _ _ content => content

end Element

namespace Kind

def name : Kind → String
  | .boolean => "BooleanElement"
  | .string => "StringElement"
  | .number => "NumberElement"
  | .enum => "EnumElement"
  | .array => "ArrayElement"
  | .object => "ObjectElement"
  | .option => "OptionElement"
  | .select => "SelectElement"
  | .member => "MemberElement"
  | .ref => "RefElement"
  | .named _ => "NamedElement"
  | .custom name _ => name

def tag : Kind → String
  | .boolean => "boolean"
  | .string => "string"
  | .number => "number"
  | .enum => "enum"
  | .array => "array"
  | .object => "object"
  | .option => "option"
  | .select => "select"
  | .member => "member"
  | .ref => "ref"
  | .named _ => "named"
  | .custom _ tag => tag

end Kind

/--
The tag that an element is written with: for a reference to a declared type that type's name, and
the tag of its kind otherwise.
-/
def Element.tag (e : Element) : Value :=
  match e.kind with
  | .named typeName => typeName
  | kind => .text kind.tag

namespace Value

/--
The exact value of a number. The truth values count as zero and one.
-/
def number? : Value → Option Exact
  | .bool b => some (Exact.ofBool b)
  | .int n => some (Exact.ofInt n)
  | .double d => some (Exact.ofDouble d)
  | .decimal d => some (Exact.ofDecimal d)
  | _ => none

/--
Whether a value counts as present. Zeros and everything empty count as absent, like `null`.
-/
def truthy : Value → Bool
  | .null => false
  | .bool b => b
  | .int n => n != 0
  | .double d => !d.isZero
  | .decimal d => !d.isZero
  | .text s => !s.isEmpty
  | .bytes data => !data.isEmpty
  | .moment _ => true
  | .list items => !items.isEmpty
  | .tuple items => !items.isEmpty
  | .set items => !items.isEmpty
  | .object entries => !entries.isEmpty
  | .element _ => true
  | .member _ _ => true
  | .ref _ => true
  | .loop => true

def isNull : Value → Bool
  | .null => true
  | _ => false

def formName : Value → String
  | .null => "NoneType"
  | .bool _ => "bool"
  | .int _ => "int"
  | .double _ => "float"
  | .decimal _ => "Decimal"
  | .text _ => "str"
  | .bytes _ => "bytes"
  | .moment m => m.formName
  | .list _ => "list"
  | .tuple _ => "tuple"
  | .set _ => "set"
  | .object _ => "dict"
  | .element e => e.kind.name
  | .member _ _ => "MemberContent"
  | .ref _ => "RefContent"
  | .loop => "list"

end Value

end ApiElements
