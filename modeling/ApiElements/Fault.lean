import ApiElements.Json.Error

/-!
This module contains the ways in which an operation can fail, by cause, with their categories and
their messages.
-/

namespace ApiElements

/--
Why a value does not fit an operation.
-/
inductive Mismatch where
  | notIterable
  | notMapping
  | unhashable
  | notIndexable
  | notSearchable
  | unordered
  | notText
  | unserializable
  | unserializableKey
  | badIndent
  | unknownSetting
  | readOnly
  | missingPart
deriving DecidableEq

/--
The cause of a failure.
-/
inductive Fault where
  | mismatch (cause : Mismatch)
  | noPart (name : String)
  | noEntry
  | noItem
  | missingTag
  | notElement (found : String)
  | notDocument (found : String)
  | missingHref
  | missingKey
  | keyNotString (tag : String)
  | literalExpected (tag found : String)
  | listExpected (tag found : String)
  | tagTaken (tag owner : String)
  | unknownSettings (path names : String)
  | malformedPairs
  | numeralTooLong
  | malformedNumeral
  /-- A decimal is malformed or cannot be used as a number. -/
  | invalidDecimal
  | noSuchCharacter
  | noSuchMoment
  /-- A value that is written stands within itself. -/
  | circular
  | forbiddenCharacter
  | json (error : Json.SyntaxError)
  | yaml
  | tooDeep
  /-- An operation that never comes to an end, so that nothing can catch this fault. -/
  | endless
  | tooWide
  | tooLarge
  | directory
  | pathTooLong
  | unnamedVariable
deriving DecidableEq

namespace Fault

/--
The categories by which faults are caught.
-/
inductive Category where
  | type
  | attribute
  | key
  | index
  | value
  | syntaxOfSettings
  | recursion
  | divergence
  | overflow
  | decimal
  | memory
  | system
deriving DecidableEq

def category : Fault → Category
  | .mismatch _ => .type
  | .noPart _ => .attribute
  | .noEntry => .key
  | .noItem => .index
  | .missingTag => .key
  | .notElement _ => .value
  | .notDocument _ => .value
  | .missingHref => .value
  | .missingKey => .value
  | .keyNotString _ => .value
  | .literalExpected _ _ => .value
  | .listExpected _ _ => .value
  | .tagTaken _ _ => .value
  | .unknownSettings _ _ => .value
  | .malformedPairs => .value
  | .numeralTooLong => .value
  | .malformedNumeral => .value
  | .invalidDecimal => .decimal
  | .noSuchCharacter => .value
  | .noSuchMoment => .value
  | .circular => .value
  | .forbiddenCharacter => .value
  | .json _ => .value
  | .yaml => .syntaxOfSettings
  | .tooDeep => .recursion
  | .endless => .divergence
  | .tooWide => .overflow
  | .tooLarge => .memory
  | .directory => .system
  | .pathTooLong => .system
  | .unnamedVariable => .system

def Category.name : Category → String
  | .type => "TypeError"
  | .attribute => "AttributeError"
  | .key => "KeyError"
  | .index => "IndexError"
  | .value => "ValueError"
  | .syntaxOfSettings => "YAMLError"
  | .recursion => "RecursionError"
  | .divergence => "Divergence"
  | .overflow => "OverflowError"
  | .decimal => "InvalidOperation"
  | .memory => "MemoryError"
  | .system => "OSError"

def name : Fault → String
  | .json _ => "JSONDecodeError"
  | .directory => "IsADirectoryError"
  | fault => fault.category.name

/--
The message of a fault that was foreseen; the others have none.
-/
def message? : Fault → Option String
  | .missingTag => some "\"Missing required 'element' field\""
  | .notElement found => some ("Expected an element object, got " ++ found)
  | .notDocument found => some ("Expected an API Elements object, got " ++ found)
  | .missingHref => some "Missing required 'href' in ref content"
  | .missingKey => some "Missing required 'key' in member content"
  | .keyNotString tag => some ("Member key must be a string element, got '" ++ tag ++ "'")
  | .literalExpected tag found =>
    some ("Element '" ++ tag ++ "' expects a literal content, got " ++ found)
  | .listExpected tag found =>
    some ("Element '" ++ tag ++ "' expects a list content, got " ++ found)
  | .tagTaken tag owner =>
    some ("Tag '" ++ tag ++ "' already registered to " ++ owner ++ ". Choose a different tag.")
  | .unknownSettings path names => some ("Unknown settings in " ++ path ++ ": " ++ names)
  | .json error => some error.message
  | _ => none

def description (fault : Fault) : String :=
  fault.message?.getD ("<" ++ fault.name ++ ">")

end Fault

end ApiElements
