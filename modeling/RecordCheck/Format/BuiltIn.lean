import RecordCheck.Calendar.Date
import RecordCheck.Pattern.Reader
import RecordCheck.Text.Blank
import RecordCheck.Uri.Host
import RecordCheck.Uri.Reference

/-!
# Formats of the schema language

The formats that schemas may name without anyone adding them: dates and times of day, names and
addresses of hosts, mail addresses, URIs and patterns. Dates, times and hosts are ASCII text.
-/

namespace RecordCheck.Format

set_option autoImplicit false

/-- A number of exactly so many digits. -/
def fixedNumber? (s : List Char) : Option Nat :=
  if s.all Char.isDigit then some (s.foldl (fun n c => n * 10 + (c.toNat - 48)) 0) else none

/-- Whether a text is a date of ten characters. -/
def isFullDate (s : List Char) : Bool :=
  match s with
  | [a, b, c, d, '-', e, f, '-', g, h] =>
    match fixedNumber? [a, b, c, d], fixedNumber? [e, f], fixedNumber? [g, h] with
    | some year, some month, some day => (Date.of? year month day).isSome
    | _, _, _ => false
  | _ => false

/-- The minutes by which a time of day is ahead of UTC; a zone is `Z` or hours and minutes. -/
def zone? (s : List Char) : Option Int :=
  match s with
  | ['Z'] | ['z'] => some 0
  | [sign, a, b, ':', c, d] => do
    let hours ← fixedNumber? [a, b]
    let minutes ← fixedNumber? [c, d]
    guard (hours ≤ 23 ∧ minutes ≤ 59)
    let offset : Int := hours * 60 + minutes
    if sign = '+' then return offset else if sign = '-' then return -offset else none
  | _ => none

/-- What follows the fraction of a second, which has at least one digit when there is one. -/
def afterFraction? (s : List Char) : Option (List Char) :=
  match s with
  | '.' :: r =>
    let rest := r.dropWhile Char.isDigit
    if rest.length < r.length then some rest else none
  | r => some r

/-- Whether a text is a time of day with zone. The second 60 exists at the end of a day in UTC only. -/
def isTime (s : List Char) : Bool :=
  match s with
  | a :: b :: ':' :: c :: d :: ':' :: e :: f :: r =>
    match fixedNumber? [a, b], fixedNumber? [c, d], fixedNumber? [e, f],
      (afterFraction? r).bind zone? with
    | some hour, some minute, some second, some ahead =>
      hour ≤ 23 && minute ≤ 59 && (second ≤ 59 || (second == 60
        && ((hour * 60 + minute : Int) - ahead) % 1440 == 1439))
    | _, _, _, _ => false
  | _ => false

/-- Whether a text is a date and a time of day with `T` between. -/
def isDateTime (s : List Char) : Bool :=
  let date := s.takeWhile fun c => c != 'T' && c != 't'
  isFullDate date && isTime (s.drop (date.length + 1))

def isHostLabel (s : List Char) : Bool :=
  !s.isEmpty && s.length ≤ 63 && s.all (fun c => c.isAlphanum || c == '-')
    && s.head? != some '-' && s.getLast? != some '-'

def isHostname (s : List Char) : Bool :=
  !s.isEmpty && s.length ≤ 253 && (Text.cut '.' s).all isHostLabel

def isIpv4 (s : List Char) : Bool :=
  match (Text.cut '.' s).mapM Host.octet? with
  | some parts => parts.length == 4
  | none => false

def isIpv6 (s : List Char) : Bool := (Host.ipv6? s).isSome

def isAtomChar (c : Char) : Bool :=
  c.isAlphanum || "!#$%&'*+-/=?^_\x60\x7b|\x7d~".toList.contains c || c.toNat ≥ 0x80

/-- The text between the quotes of a quoted name. -/
def isQuotedText : List Char → Bool
  | [] => true
  | ['\\'] => false
  | '\\' :: c :: r => (0x20 ≤ c.toNat && c.toNat ≤ 0x7E || c == '\t') && isQuotedText r
  | c :: r => c != '"' && (0x20 ≤ c.toNat && c.toNat != 0x7F || c == '\t') && isQuotedText r

/-- The part of a mail address before the sign. -/
def isMailbox (s : List Char) : Bool :=
  !s.isEmpty && (String.ofList s).utf8ByteSize ≤ 64 &&
    match s with
    | '"' :: r => r.length > 1 && r.getLast? == some '"' && isQuotedText r.dropLast
    | _ => (Text.cut '.' s).all fun atom => !atom.isEmpty && atom.all isAtomChar

/-- The part of a mail address behind the sign: a host, or an address in brackets. -/
def isMailHost (s : List Char) : Bool :=
  match s with
  | '[' :: r =>
    r.getLast? == some ']' &&
      match Text.strip? "IPv6:".toList r.dropLast with
      | some address => isIpv6 address
      | none => isIpv4 r.dropLast
  | _ => isHostname s

/-- A mail address without the name that may stand before it. -/
def bareMail? (s : List Char) : Option (List Char) :=
  match Text.splitLast? [' ', '<'] s with
  | none => some s
  | some (_, r) => Text.dropLast? ['>'] (Text.trim r)

def isMail (s : List Char) : Bool :=
  match (bareMail? s).bind (Text.splitLast? ['@']) with
  | some (mailbox, host) => isMailbox mailbox && isMailHost host
  | none => false

def isPattern (s : String) : Bool := (Pattern.ofSchema? s).isSome

/-- The check of a format of the schema language. -/
def builtInCheck? (name : String) : Option (String → Bool) :=
  match name with
  | "date" => some fun s => isFullDate s.toList
  | "time" => some fun s => isTime s.toList
  | "date-time" => some fun s => isDateTime s.toList
  | "email" | "idn-email" => some fun s => isMail s.toList
  | "hostname" => some fun s => isHostname s.toList
  | "ipv4" => some fun s => isIpv4 s.toList
  | "ipv6" => some fun s => isIpv6 s.toList
  | "regex" => some isPattern
  | "uri" => some Reference.isAddress
  | _ => none

end RecordCheck.Format
