import EffectShader.Text.Basic

/-!
# Points in time

A point in time is a date, a time of day to the nanosecond and the distance of
its clock from universal time.  A date alone means midnight, and a time
without a zone is universal time.
-/

namespace EffectShader

structure Moment where
  year : Nat
  month : Nat
  day : Nat
  hour : Nat
  minute : Nat
  second : Nat
  nanosecond : Nat
  /-- How far the clock is ahead of universal time, in minutes. -/
  ahead : Int
  deriving DecidableEq, Repr

namespace Moment

/-!
# The calendar
-/

def isLeapYear (year : Nat) : Bool :=
  year % 4 == 0 && (year % 100 != 0 || year % 400 == 0)

def daysIn (year month : Nat) : Nat :=
  if month == 2 then (if isLeapYear year then 29 else 28)
  else if [4, 6, 9, 11].contains month then 30
  else 31

/-- The date is in the calendar, and the time is on the clock. -/
def isValid (m : Moment) : Bool :=
  1 ≤ m.month && m.month ≤ 12 && 1 ≤ m.day && m.day ≤ daysIn m.year m.month &&
    m.hour < 24 && m.minute < 60 && m.second < 60

def dayNumber (m : Moment) : Nat :=
  let earlierYears :=
    if m.year == 0 then 0
    else
      let y := m.year - 1
      366 + 365 * y + y / 4 - y / 100 + y / 400
  let earlierMonths := (List.range (m.month - 1)).foldl (fun n k => n + daysIn m.year (k + 1)) 0
  earlierYears + earlierMonths + (m.day - 1)

def secondNumber (m : Moment) : Int :=
  Int.ofNat (((m.dayNumber * 24 + m.hour) * 60 + m.minute) * 60 + m.second) - 60 * m.ahead

/-- The order of moments as keys of a map: by the fraction of a second first. -/
def keyLe (a b : Moment) : Bool :=
  a.nanosecond < b.nanosecond ||
    (a.nanosecond == b.nanosecond && a.secondNumber ≤ b.secondNumber)

/-!
# Reading
-/

def short? : Text -> Option (Nat × Text)
  | a :: b :: s =>
      if !Byte.isDigit a then none
      else if Byte.isDigit b then some (Text.digitsValue [a, b], s)
      else some (Text.digitsValue [a], b :: s)
  | [a] => if Byte.isDigit a then some (Text.digitsValue [a], []) else none
  | [] => none

/-- A number of one or two digits after a byte. -/
def shortAfter? (mark : UInt8) : Text -> Option (Nat × Text)
  | b :: s => if b == mark then short? s else none
  | [] => none

/-- The nanoseconds after a point or a comma; digits beyond the ninth do not count. -/
def fraction (s : Text) : Nat × Text :=
  match s with
  | b :: rest =>
      let digits := rest.takeWhile Byte.isDigit
      if (b == Byte.dot || b == Byte.comma) && !digits.isEmpty then
        (Text.digitsValue ((digits ++ List.replicate 9 Byte.zero).take 9), rest.drop digits.length)
      else (0, s)
  | [] => (0, s)

/-- How far a clock is ahead: `Z`, or hours and minutes after a sign. -/
def zone? : Text -> Option Int
  | [b] => if b == Byte.of 'Z' then some 0 else none
  | [sign, h1, h2, colon, m1, m2] =>
      let hours := Text.digitsValue [h1, h2]
      let minutes := Text.digitsValue [m1, m2]
      if [h1, h2, m1, m2].all Byte.isDigit && colon == Byte.colon && hours ≤ 24 && minutes ≤ 60 then
        let distance : Int := Int.ofNat (60 * hours + minutes)
        if sign == Byte.plus then some distance
        else if sign == Byte.minus then some (-distance)
        else none
      else none
  | _ => none

def clock? (date : Moment) (s : Text) : Option (Moment × Text) := do
  let (hour, s) <- short? s
  let (minute, s) <- shortAfter? Byte.colon s
  let (second, s) <- shortAfter? Byte.colon s
  let (nanosecond, s) := fraction s
  return ({ date with hour, minute, second, nanosecond }, s)

def date? (s : Text) : Option (Moment × Text) := do
  let year := s.takeWhile Byte.isDigit
  if year.length != 4 then failure
  let (month, s) <- shortAfter? Byte.minus (s.drop 4)
  let (day, s) <- shortAfter? Byte.minus s
  return (⟨Text.digitsValue year, month, day, 0, 0, 0, 0, 0⟩, s)

/-- What follows a date: nothing, blanks and a time, or the letter T, a time and a zone. -/
def withClock? (date : Moment) (s : Text) : Option Moment :=
  match s with
  | [] => some date
  | b :: rest =>
      if b == Byte.space then
        match clock? date (rest.dropWhile (· == Byte.space)) with
        | some (m, []) => some m
        | _ => none
      else if b == Byte.of 'T' || b == Byte.of 't' then do
        let (m, s) <- clock? date rest
        let ahead <- zone? s
        return { m with ahead }
      else none

def parse? (s : Text) : Option Moment := do
  let (date, rest) <- date? s
  let m <- withClock? date rest
  if m.isValid then some m else none

/-!
# Writing
-/

def padded (width n : Nat) : Text :=
  let digits := Text.ofNat n
  List.replicate (width - digits.length) Byte.zero ++ digits

def dateText (m : Moment) : Text :=
  padded 4 m.year ++ "-" ++ padded 2 m.month ++ "-" ++ padded 2 m.day

/-- The time of day; the fraction of a second has no zeros at its end. -/
def clockText (m : Moment) : Text :=
  let fraction : Text :=
    if m.nanosecond == 0 then []
    else Byte.dot :: Text.dropEndWhile (· == Byte.zero) (padded 9 m.nanosecond)
  padded 2 m.hour ++ ":" ++ padded 2 m.minute ++ ":" ++ padded 2 m.second ++ fraction

def zoneText (separator : Text) (m : Moment) : Text :=
  let distance := m.ahead.natAbs
  (if m.ahead < 0 then Byte.minus else Byte.plus) ::
    (padded 2 (distance / 60) ++ separator ++ padded 2 (distance % 60))

/-- How a moment is shown in messages; a zone without a name is its distance. -/
def display (m : Moment) : Text :=
  let name : Text := if m.ahead == 0 then "UTC" else m.zoneText []
  m.dateText ++ " " ++ m.clockText ++ " " ++ m.zoneText [] ++ " " ++ name

def render (m : Moment) : Text :=
  m.dateText ++ "T" ++ m.clockText ++ (if m.ahead == 0 then ("Z" : Text) else m.zoneText ":")

end Moment

end EffectShader
