import JsxPresence.Log.Level

namespace JsxPresence.Log

/-- What was said, by whom and how urgently. -/
structure Entry where
  level : Level
  module : Bytes
  message : Bytes
deriving DecidableEq

/-- An entry with its time, in milliseconds since the epoch. -/
structure Record where
  entry : Entry
  time : Int
deriving DecidableEq

inductive Format where
  | text
  | json
deriving DecidableEq

/-- Fills up on the left to a width. -/
def padLeft (fill : UInt8) (width : Nat) (s : Bytes) : Bytes :=
  List.replicate (width - s.length) fill ++ s

def padRight (fill : UInt8) (width : Nat) (s : Bytes) : Bytes :=
  s ++ List.replicate (width - s.length) fill

def twoDigits (n : Nat) : Bytes := padLeft (byte '0') 2 (decimal n)

/-- The time of day, `HH:MM:SS.mmm`. Seconds and milliseconds are cut toward zero, so before the
epoch the milliseconds carry a sign. -/
def clockTime (time : Int) : Bytes :=
  let second := ((time.tdiv 1000).emod 86400).toNat
  twoDigits (second / 3600) ++ utf8 ":" ++ twoDigits (second / 60 % 60) ++ utf8 ":" ++
    twoDigits (second % 60) ++ utf8 "." ++ padLeft (byte '0') 3 (decimalInt (time.tmod 1000))

def escape : UInt8 := 0x1b

/-- The terminal sequence that starts a level's color. -/
def Level.color : Level → Bytes
  | trace => escape :: utf8 "[90m"
  | debug => escape :: utf8 "[36m"
  | info => escape :: utf8 "[32m"
  | warn => escape :: utf8 "[33m"
  | error => escape :: utf8 "[31m"
  | fatal => escape :: utf8 "[1;31m"
  | off => []

def colorEnd : Bytes := escape :: utf8 "[0m"

/-- Escapes quotes, backslashes, line breaks and tabs, and nothing else. -/
def escapeByte (b : UInt8) : Bytes :=
  if b = doubleQuote || b = backslash then [backslash, b]
  else if b = byte '\n' then utf8 "\\n"
  else if b = byte '\r' then utf8 "\\r"
  else if b = byte '\t' then utf8 "\\t"
  else [b]

def escapeText (s : Bytes) : Bytes := s.flatMap escapeByte

namespace Record

def textLine (r : Record) (colors : Bool) : Bytes :=
  let name := padRight (byte ' ') 5 r.entry.level.name
  let shown := if colors then r.entry.level.color ++ name ++ colorEnd else name
  clockTime r.time ++ utf8 " " ++ shown ++ utf8 " [" ++ r.entry.module ++ utf8 "] " ++
    r.entry.message ++ utf8 "\n"

def jsonLine (r : Record) : Bytes :=
  utf8 "\x7b\"ts\":" ++ decimalInt r.time ++ utf8 ",\"level\":\"" ++ r.entry.level.name ++
    utf8 "\",\"module\":\"" ++ escapeText r.entry.module ++ utf8 "\",\"msg\":\"" ++
    escapeText r.entry.message ++ utf8 "\"\x7d\n"

def line (r : Record) (format : Format) (colors : Bool) : Bytes :=
  match format with
  | .text => r.textLine colors
  | .json => r.jsonLine

end Record

end JsxPresence.Log
