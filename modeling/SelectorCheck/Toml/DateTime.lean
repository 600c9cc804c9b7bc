import SelectorCheck.Toml.Number

/-
  Dates and times of TOML.

  They are read into their canonical text: a capital `T` between date and time, a
  capital `Z`, and a fraction of at most nine digits without zeros at its end.

  A quoted text can be taken for a date or time too (`ofText?`). There the hour may
  be 24, and an offset is right if it is at most a day.
-/

namespace SelectorCheck.Toml

open Scan

/-- `n` digits that stand for a number within bounds. -/
def fixedDigits (n least most : Nat) : Scan (List Char) := do
  let digits ← (List.range n).mapM fun _ => one Char.isDigit
  let value := ofDigits 10 digits
  if least ≤ value ∧ value ≤ most then return digits else failure

def isLeapYear (year : Nat) : Bool :=
  year % 4 == 0 && (year % 100 != 0 || year % 400 == 0)

def daysOf (year month : Nat) : Nat :=
  if month = 2 then (if isLeapYear year then 29 else 28)
  else if month = 4 ∨ month = 6 ∨ month = 9 ∨ month = 11 then 30
  else 31

def date : Scan (List Char) := do
  let year ← fixedDigits 4 0 9999
  char '-'
  let month ← fixedDigits 2 1 12
  char '-'
  let day ← fixedDigits 2 1 (daysOf (ofDigits 10 year) (ofDigits 10 month))
  return year ++ ['-'] ++ month ++ ['-'] ++ day

/-- The canonical text of the digits of a fraction, with its dot. -/
def fractionText (digits : List Char) : List Char :=
  match ((digits.take 9).reverse.dropWhile (· == '0')).reverse with
  | [] => []
  | kept => '.' :: kept

/-- A time of day, with hours up to the given one. A minute may have a leap
second. -/
def timeUpTo (lastHour : Nat) : Scan (List Char) := do
  let hour ← fixedDigits 2 0 lastHour
  char ':'
  let minute ← fixedDigits 2 0 59
  char ':'
  let second ← fixedDigits 2 0 60
  let fraction ← option (do char '.'; many1 (one Char.isDigit))
  return hour ++ [':'] ++ minute ++ [':'] ++ second ++ fractionText (fraction.getD [])

def time : Scan (List Char) := timeUpTo 23

/-- The mark for universal time. -/
def universal : Scan (List Char) := do
  discard (one fun c => c == 'Z' || c == 'z')
  return ['Z']

def minus : Scan Bool := (do char '+'; return false) <|> (do char '-'; return true)

/-- The canonical text of an offset in hours and minutes. Offset zero has no
minus. -/
def offsetText (negative : Bool) (hour minute : List Char) : List Char :=
  (if negative && (hour ++ minute).any (· != '0') then '-' else '+') :: hour ++ [':'] ++ minute

def offset : Scan (List Char) :=
  universal <|> (do
    let negative ← minus
    let hour ← fixedDigits 2 0 23
    char ':'
    return offsetText negative hour (← fixedDigits 2 0 59))

def timeMark : Scan Unit := discard (one fun c => c == 'T' || c == 't' || c == ' ')

/-- The time after a date, with its mark and offset. -/
def timeOfDate : Scan (List Char) := do
  timeMark
  let clock ← time
  return ['T'] ++ clock ++ (← option offset).getD []

def dateTime : Scan String :=
  String.ofList <$>
    ((do
      let day ← date
      return day ++ (← option timeOfDate).getD [])
    <|> time)

namespace DateTime

def twoDigits (n : Nat) : List Char := [Nat.digitChar (n / 10), Nat.digitChar (n % 10)]

/-- An offset in a quoted text: two numbers of two digits that make at most a
day. -/
def offsetInText : Scan (List Char) :=
  universal <|> (do
    let negative ← minus
    let hours ← fixedDigits 2 0 99
    char ':'
    let minutes ← fixedDigits 2 0 99
    let total := 60 * ofDigits 10 hours + ofDigits 10 minutes
    if total ≤ 24 * 60 then
      return offsetText negative (twoDigits (total / 60)) (twoDigits (total % 60))
    else failure)

/-- A date in a quoted text, with or without a time and its offset. -/
def dateInText : Scan (List Char) := do
  let day ← date
  match ← option timeMark with
  | none => return day
  | some _ =>
    let clock ← timeUpTo 24
    return day ++ ['T'] ++ clock ++ (← option offsetInText).getD []

/-- The canonical text of the date or time that a whole text writes. A text with a
colon in the third place is a time. -/
def ofText? (text : String) : Option String :=
  let whole : Scan (List Char) := do
    let read ← if text.toList[2]? = some ':' then timeUpTo 24 else dateInText
    done
    return read
  (whole.run text.toList).map fun (read, _) => String.ofList read

end DateTime

end SelectorCheck.Toml
