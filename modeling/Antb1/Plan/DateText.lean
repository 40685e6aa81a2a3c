import Antb1.Common.Civil
import Antb1.Lib.Digits

/-! The text of DATEs and TIMESTAMPs: `ParseDate`, `ParseTimestamp`, `FormatDate` and
`FormatTimestamp` of `plan/literal.cc`. The library's `year_month_day` is a date of the
calendar. -/
namespace Antb1.Plan.DateText

open Calendar Digits

/-- Where a step has no result: an overflow, or a `Narrow` to int32_t of a value that it loses. -/
inductive Stop where
  | overflow (type : Overflow)
  | narrow
  deriving DecidableEq, Repr

abbrev Steps := Except Stop

def step (x : Int) : Steps Int := (int64 x).mapError .overflow

def narrow (x : Int) : Steps Int := if -2 ^ 31 ≤ x ∧ x < 2 ^ 31 then .ok x else .error .narrow

def kMicrosPerDay : Int := 86400000000

/-- The number `length` digits from `start` denote. -/
def field (text : List Char) (start length : Nat) : Option Nat :=
  let digits := (text.drop start).take length
  if digits.all Char.isDigit then some (value digits) else none

def dateOf (year month day : Int) : Option Date :=
  if valid : (1 ≤ month ∧ month ≤ 12) ∧ (1 ≤ day ∧ day ≤ monthLength year month) then
    some ⟨year, month, day, valid.1, valid.2⟩
  else none

def parseDate (text : List Char) : Option Int :=
  if text.length ≠ 10 ∨ text[4]? ≠ some '-' ∨ text[7]? ≠ some '-' then none
  else do
    let year ← field text 0 4
    let month ← field text 5 2
    let day ← field text 8 2
    return (← dateOf year month day).dayNumber

/-- Two digits at the front of a text, at most `max`. -/
def twoDigits (max : Nat) : List Char → Option (Nat × List Char)
  | a :: b :: rest =>
    if a.isDigit && b.isDigit && decide (digit a * 10 + digit b ≤ max) then
      some (digit a * 10 + digit b, rest)
    else none
  | _ => none

/-- The seconds of a time of day, whether they were written, and the rest of the text. -/
def parseClock (text : List Char) : Option (Nat × Bool × List Char) := do
  let (hours, rest) ← twoDigits 23 text
  if rest.head? ≠ some ':' then none
  else
    let (minutes, rest) ← twoDigits 59 rest.tail
    if rest.head? = some ':' then
      let (seconds, rest) ← twoDigits 59 rest.tail
      return (hours * 3600 + minutes * 60 + seconds, true, rest)
    else return (hours * 3600 + minutes * 60, false, rest)

/-- The microseconds of one to nine fraction digits, of which the first six count. -/
def parseFraction (text : List Char) : Option Nat :=
  if text.head? ≠ some '.' ∨ text.length < 2 ∨ text.length > 10 then none
  else
    let digits := text.tail
    if digits.all Char.isDigit then some (value (digits.take 6) * 10 ^ (6 - digits.length))
    else none

/-- The time after a date, added to the microseconds of its day. -/
def parseTime (micros : Int) (text : List Char) : Steps (Option Int) :=
  match parseClock text with
  | none => .ok none
  | some (seconds, hasSeconds, rest) => do
    let micros ← step (micros + seconds * 1000000)
    if rest = [] then return some micros
    -- a fraction only after the seconds
    else if !hasSeconds then return none
    else
      match parseFraction rest with
      | none => return none
      | some fraction => return some (← step (micros + fraction))

def parseTimestamp (text : List Char) : Steps (Option Int) :=
  if text.length < 10 then .ok none
  else
    match parseDate (text.take 10) with
    | none => .ok none
    | some days => do
      let micros ← step (days * kMicrosPerDay)
      match text.drop 10 with
      | [] => return some micros
      | mark :: rest => if mark ≠ ' ' ∧ mark ≠ 'T' then return none else parseTime micros rest

def dashed (year month day : Nat) : List Char :=
  padded 4 year ++ '-' :: padded 2 month ++ '-' :: padded 2 day

def formatDate (days : Int) : Steps (List Char) :=
  if days = 2 ^ 31 - 1 then .ok "infinity".toList
  else if days = -(2 ^ 31 - 1) then .ok "-infinity".toList
  else do
    let z ← step (days + 719468)
    let era := (← step (if z ≥ 0 then z else z - 146096)).tdiv 146097
    let date ← (civilOfEra z era).mapError .overflow
    if date.year ≤ 0 then
      return dashed (← step (1 - date.year)).toNat date.month.toNat date.day.toNat ++
        " (BC)".toList
    else return dashed date.year.toNat date.month.toNat date.day.toNat

def fractionText (micros : Nat) : List Char :=
  if micros = 0 then [] else '.' :: ((padded 6 micros).reverse.dropWhile (· = '0')).reverse

def clockText (seconds : Nat) : List Char :=
  padded 2 (seconds / 3600) ++ ':' :: padded 2 (seconds / 60 % 60) ++ ':' ::
    padded 2 (seconds % 60)

def formatTimestamp (micros : Int) : Steps (List Char) :=
  if micros = 2 ^ 63 - 1 then .ok "infinity".toList
  else if micros = -(2 ^ 63 - 1) then .ok "-infinity".toList
  else do
    let days := micros.tdiv kMicrosPerDay
    let rest := micros.tmod kMicrosPerDay
    -- floor: the time of day counts forward from midnight
    let days ← step (if rest < 0 then days - 1 else days)
    let rest ← step (if rest < 0 then rest + kMicrosPerDay else rest)
    let date ← formatDate (← narrow days)
    return date ++ ' ' :: clockText (rest.tdiv 1000000).toNat ++
      fractionText (rest.tmod 1000000).toNat

end Antb1.Plan.DateText
