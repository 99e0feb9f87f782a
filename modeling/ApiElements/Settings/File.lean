import ApiElements.Settings.Basic
import ApiElements.Value.Display
import ApiElements.Value.Order

/-!
This module contains the loading of settings: what a file sets takes the place of the defaults, and
environment variables take the place of both. How a file is read is left open.
-/

namespace ApiElements

/--
A way to read the value that the text of a settings file holds, `null` if it holds none.
-/
abbrev FileReader := List Char → Except Fault Value

namespace Settings

def normalizeBreaks : List Char → List Char
  | [] => []
  | '\r' :: '\n' :: rest => '\n' :: normalizeBreaks rest
  | '\r' :: rest => '\n' :: normalizeBreaks rest
  | c :: rest => c :: normalizeBreaks rest

/--
The parts of a path that lead somewhere.
-/
def pathParts (path : String) : List String :=
  (path.splitOn "/").filter fun part => part != "" && part != "."

/--
A path as messages show it: without empty parts and without parts that stay in place.
-/
def shownPath (path : String) : String :=
  let slashes := path.toList.takeWhile (· = '/')
  let root := if slashes.length = 2 then "//" else if slashes.isEmpty then "" else "/"
  let shown := root ++ "/".intercalate (pathParts path)
  if shown = "" then "." else shown

/--
Whether a path leads to a directory that is always there.
-/
def isDirectory (path : String) : Bool :=
  (pathParts path).all (· = "..")

def partLimit : Nat := 255

def pathLimit : Nat := 4095

def isPathTooLong (path : String) : Bool :=
  pathLimit < (shownPath path).utf8ByteSize ||
    (pathParts path).any fun part => partLimit < part.utf8ByteSize

def checkPath (path : String) : Except Fault Unit :=
  if isPathTooLong path then .error .pathTooLong
  else if isDirectory path then .error .directory
  else .ok ()

def endsEarly (path : String) : Bool := path.toList.contains '\x00'

mutual

def isShownName : Value → Bool
  | .int n => isShort n
  | .tuple items => areShownNames items
  | _ => true
termination_by structural v => v

def areShownNames : List Value → Bool
  | [] => true
  | name :: rest => isShownName name && areShownNames rest
termination_by structural names => names

end

def unknownNames (user : Value) : Except Fault (List Value) := do
  let names ← (← user.items).mapM Value.asKey
  Value.sort ((Value.distinct names).filter fun name => (Setting.named? name).isNone)

def ofValue (path : String) (user : Value) : Except Fault Settings := do
  if user.truthy then
    let unknown ← unknownNames user
    if unknown.isEmpty then update {} (← user.entriesOrNone)
    -- The message shows the names, which whole numbers that are too long prevent.
    else if areShownNames unknown then
      .error (.unknownSettings (shownPath path) (Value.list unknown).display)
    else .error .numeralTooLong
  else .ok {}

def ofText (read : FileReader) (path text : String) : Except Fault Settings := do
  ofValue path (← read (normalizeBreaks text.toList))

/--
The environment variables that count, with the settings that they fix. Only whether a variable holds
something matters.
-/
def flags : List (String × Setting × Bool) := [
  ("DRAFTER_EXAMPLES", .examples, false), ("BENCHMARK", .benchmark, true),
  ("ELEMENTDSL_VERBOSE", .verbose, true)]

def withEnvironment (s : Settings) (environment : Table Value) : Settings :=
  flags.foldl (fun s (name, setting, v) =>
    if ((environment.get? (.text name)).getD .null).truthy then s.set setting (.bool v) else s) s

/--
A variable of a process as it can be set: its name is not empty and it holds a text.
-/
def checkVariable (name : String) (v : Value) : Except Fault Unit :=
  match v with
  | .text text =>
    if endsEarly name || endsEarly text || name.contains '=' then .error .forbiddenCharacter
    else if name.isEmpty then .error .unnamedVariable
    else .ok ()
  | _ => .error (.mismatch .notText)

def processEnvironment (entries : List (String × Value)) : Except Fault (Table Value) :=
  entries.mapM fun (name, v) => do
    checkVariable name v
    .ok (Value.text name, v)

def defaultPath : String := "elementdsl.yaml"

/--
The settings from the text of a file, if there is one, and an environment.
-/
def loadWith (read : FileReader) (path : String) (file : Option String)
    (environment : Table Value) : Except Fault Settings := do
  let s ← match file with
    | some text => do
      if endsEarly path then .error .forbiddenCharacter
      else do
        checkPath path
        ofText read path text
    | none => do
      -- No file can be there, which is found out without opening one.
      if endsEarly path then .ok {}
      else do
        checkPath path
        .ok {}
  .ok (s.withEnvironment environment)

end Settings

end ApiElements
