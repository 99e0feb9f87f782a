import ApiElements.Fault
import ApiElements.Number.Numeral
import ApiElements.Time.Moment

/-!
This module contains the timestamps of settings files: how one is written, and the moment that it
stands for if there is such a moment.
-/

namespace ApiElements

namespace Yaml

/--
The distance from Greenwich as it is written: a letter for none, or hours and maybe minutes.
-/
inductive WrittenOffset where
  | greenwich
  | hours (negative : Bool) (hour minute : List Char)

structure WrittenClock where
  hour : List Char
  minute : List Char
  second : List Char
  fraction : List Char
  offset : Option WrittenOffset

structure Timestamp where
  year : List Char
  month : List Char
  day : List Char
  clock : Option WrittenClock

namespace Timestamp

/--
Reads as many digits as there are up to a greatest number.
-/
def digits? (least greatest : Nat) (cs : List Char) : Option (List Char × List Char) :=
  let found := (cs.take greatest).takeWhile Char.isDigit
  if least ≤ found.length then some (found, cs.drop found.length) else none

def dropMark? (mark : Char) : List Char → Option (List Char)
  | c :: cs => if c = mark then some cs else none
  | [] => none

def isBlank (c : Char) : Bool := c = ' ' || c = '\t'

/--
Drops what separates the day from the time: a letter, or blanks.
-/
def dropGap? : List Char → Option (List Char)
  | c :: cs =>
    if c = 'T' ∨ c = 't' then some cs
    else if isBlank c then some (cs.dropWhile isBlank)
    else none
  | [] => none

def offset? : List Char → Option WrittenOffset
  | ['Z'] => some .greenwich
  | c :: cs =>
    if c = '-' ∨ c = '+' then do
      let (hour, rest) ← digits? 1 2 cs
      if rest.isEmpty then some (.hours (c = '-') hour [])
      else do
        let (minute, rest) ← digits? 2 2 (← dropMark? ':' rest)
        if rest.isEmpty then some (.hours (c = '-') hour minute) else none
    else none
  | [] => none

def clock? (cs : List Char) : Option WrittenClock := do
  let (hour, cs) ← digits? 1 2 cs
  let (minute, cs) ← digits? 2 2 (← dropMark? ':' cs)
  let (second, cs) ← digits? 2 2 (← dropMark? ':' cs)
  let (fraction, cs) := match cs with
    | '.' :: rest => Numeral.spanDigits rest
    | cs => ([], cs)
  if cs.isEmpty then some ⟨hour, minute, second, fraction, none⟩
  else some ⟨hour, minute, second, fraction, some (← offset? (cs.dropWhile isBlank))⟩

def ofChars? (cs : List Char) : Option Timestamp := do
  let (year, cs) ← digits? 4 4 cs
  let (month, cs) ← digits? 1 2 (← dropMark? '-' cs)
  let (day, cs) ← digits? 1 2 (← dropMark? '-' cs)
  if cs.isEmpty then some ⟨year, month, day, none⟩
  else some ⟨year, month, day, some (← clock? (← dropGap? cs))⟩

/--
Whether a timestamp needs no tag: a day without a time has two digits for month and day.
-/
def isPlain (t : Timestamp) : Bool :=
  t.clock.isSome || (t.month.length = 2 && t.day.length = 2)

def date? (t : Timestamp) : Option Date :=
  let year := Numeral.digitsValue t.year
  let month := Numeral.digitsValue t.month
  let day := Numeral.digitsValue t.day
  if real : 0 < year ∧ 0 < day ∧ day ≤ Calendar.monthLength year month then
    some ⟨year, month, day, real⟩
  else none

def clockOf? (w : WrittenClock) : Option Clock :=
  let hour := Numeral.digitsValue w.hour
  let minute := Numeral.digitsValue w.minute
  let second := Numeral.digitsValue w.second
  -- Of the fraction six digits count.
  let microsecond := Numeral.digitsValue ((w.fraction ++ List.replicate 6 '0').take 6)
  if real : hour < 24 ∧ minute < 60 ∧ second < 60 ∧ microsecond < 1000000 then
    some ⟨hour, minute, second, microsecond, real⟩
  else none

def offsetOf? : WrittenOffset → Option Offset
  | .greenwich => some ⟨0, by decide⟩
  | .hours negative hour minute =>
    let minutes : Int := Numeral.digitsValue hour * 60 + Numeral.digitsValue minute
    let minutes := if negative then -minutes else minutes
    if near : minutes.natAbs < 24 * 60 then some ⟨minutes, near⟩ else none

def moment? (t : Timestamp) : Option Moment := do
  let date ← t.date?
  match t.clock with
  | none => some (.day date)
  | some w => do
    let clock ← clockOf? w
    match w.offset with
    | none => some (.local date clock)
    | some offset => do some (.fixed date clock (← offsetOf? offset))

end Timestamp

/--
The moment of a text that is tagged as a timestamp.
-/
def momentOf (cs : List Char) : Except Fault Moment :=
  match Timestamp.ofChars? cs with
  | none => .error (.noPart "groupdict")
  | some t =>
    match t.moment? with
    | some m => .ok m
    | none => .error .noSuchMoment

end Yaml

end ApiElements
