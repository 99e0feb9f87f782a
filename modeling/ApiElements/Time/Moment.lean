/-!
This module contains points in time: days of the calendar, and times of day by a local clock or by one
whose distance from Greenwich is known.
-/

namespace ApiElements

namespace Calendar

def isLeap (year : Nat) : Bool :=
  year % 4 = 0 && (year % 100 != 0 || year % 400 = 0)

def monthLengths (year : Nat) : List Nat :=
  [31, if isLeap year then 29 else 28, 31, 30, 31, 30, 31, 31, 30, 31, 30, 31]

/--
The days of a month, of which the first one is the month one. There are none in a month that does not
exist.
-/
def monthLength (year month : Nat) : Nat :=
  if month = 0 then 0 else (monthLengths year).getD (month - 1) 0

def daysBeforeYear (year : Nat) : Nat :=
  let past := year - 1
  365 * past + past / 4 - past / 100 + past / 400

def daysBeforeMonth (year month : Nat) : Nat :=
  ((monthLengths year).take (month - 1)).foldl (· + ·) 0

end Calendar

/--
A day of the calendar.
-/
structure Date where
  year : Nat
  month : Nat
  day : Nat
  real : 0 < year ∧ 0 < day ∧ day ≤ Calendar.monthLength year month
deriving DecidableEq

/--
A time of day.
-/
structure Clock where
  hour : Nat
  minute : Nat
  second : Nat
  microsecond : Nat
  real : hour < 24 ∧ minute < 60 ∧ second < 60 ∧ microsecond < 1000000
deriving DecidableEq

/--
The minutes by which a clock is ahead of the one in Greenwich, less than a day.
-/
structure Offset where
  minutes : Int
  near : minutes.natAbs < 24 * 60
deriving DecidableEq

inductive Moment where
  | day (date : Date)
  | local (date : Date) (clock : Clock)
  | fixed (date : Date) (clock : Clock) (offset : Offset)
deriving DecidableEq

/--
What counts of a moment when moments are compared: its day, or its microsecond by a clock of one's own
or by the one in Greenwich.
-/
inductive Instant where
  | day (ordinal : Nat)
  | local (microsecond : Nat)
  | fixed (microsecond : Int)
deriving DecidableEq

namespace Moment

def ordinal (date : Date) : Nat :=
  Calendar.daysBeforeYear date.year + Calendar.daysBeforeMonth date.year date.month + date.day

def microseconds (date : Date) (clock : Clock) : Nat :=
  (((ordinal date * 24 + clock.hour) * 60 + clock.minute) * 60 + clock.second) * 1000000
    + clock.microsecond

def instant : Moment → Instant
  | .day date => .day (ordinal date)
  | .local date clock => .local (microseconds date clock)
  | .fixed date clock offset =>
    .fixed (microseconds date clock - offset.minutes * 60 * 1000000)

/--
Whether a moment is before another one, if both are days or times by clocks of one sort.
-/
def before? (x y : Moment) : Option Bool :=
  match x.instant, y.instant with
  | .day m, .day n => some (m < n)
  | .local m, .local n => some (m < n)
  | .fixed m, .fixed n => some (m < n)
  | _, _ => none

def formName : Moment → String
  | .day _ => "date"
  | _ => "datetime"

def listed (numbers : List Nat) : String :=
  ", ".intercalate (numbers.map Nat.repr)

/--
The numbers of a date and a time of day, without seconds and microseconds at the end that are zero.
-/
def parts (date : Date) (clock : Clock) : List Nat :=
  [date.year, date.month, date.day, clock.hour, clock.minute] ++
    if clock.microsecond ≠ 0 then [clock.second, clock.microsecond]
    else if clock.second ≠ 0 then [clock.second] else []

def displayOffset (offset : Offset) : String :=
  if offset.minutes = 0 then "datetime.timezone.utc"
  else
    -- Days may be negative, the seconds of a day are not.
    let days := offset.minutes / (24 * 60)
    let seconds := offset.minutes % (24 * 60) * 60
    let whole := if days = 0 then "" else "days=" ++ toString days ++ ", "
    "datetime.timezone(datetime.timedelta(" ++ whole ++ "seconds=" ++ toString seconds ++ "))"

/--
The form in which messages show a moment.
-/
def display : Moment → String
  | .day date => "datetime.date(" ++ listed [date.year, date.month, date.day] ++ ")"
  | .local date clock => "datetime.datetime(" ++ listed (parts date clock) ++ ")"
  | .fixed date clock offset =>
    "datetime.datetime(" ++ listed (parts date clock) ++ ", tzinfo=" ++ displayOffset offset ++ ")"

def padded (width n : Nat) : String :=
  let digits := Nat.toDigits 10 n
  String.ofList (List.replicate (width - digits.length) '0' ++ digits)

def dateText (date : Date) : String :=
  "-".intercalate [padded 4 date.year, padded 2 date.month, padded 2 date.day]

def clockText (clock : Clock) : String :=
  let text := ":".intercalate [padded 2 clock.hour, padded 2 clock.minute, padded 2 clock.second]
  if clock.microsecond = 0 then text else text ++ "." ++ padded 6 clock.microsecond

def offsetText (offset : Offset) : String :=
  let minutes := offset.minutes.natAbs
  (if offset.minutes < 0 then "-" else "+") ++ padded 2 (minutes / 60) ++ ":" ++
    padded 2 (minutes % 60)

/--
A moment as part of a message.
-/
def text : Moment → String
  | .day date => dateText date
  | .local date clock => dateText date ++ " " ++ clockText clock
  | .fixed date clock offset => dateText date ++ " " ++ clockText clock ++ offsetText offset

end Moment

end ApiElements
