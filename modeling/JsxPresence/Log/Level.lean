import JsxPresence.Bytes

namespace JsxPresence.Log

/-- From the most talkative to silence. -/
inductive Level where
  | trace
  | debug
  | info
  | warn
  | error
  | fatal
  | off
deriving DecidableEq

namespace Level

def all : List Level := [trace, debug, info, warn, error, fatal, off]

def rank : Level → Nat
  | trace => 0
  | debug => 1
  | info => 2
  | warn => 3
  | error => 4
  | fatal => 5
  | off => 6

def name : Level → Bytes
  | trace => utf8 "TRACE"
  | debug => utf8 "DEBUG"
  | info => utf8 "INFO"
  | warn => utf8 "WARN"
  | error => utf8 "ERROR"
  | fatal => utf8 "FATAL"
  | off => utf8 "OFF"

/-- A name all in capitals or all in small letters; anything else means `info`. -/
def ofText (text : Bytes) : Level :=
  (all.find? fun l => text = l.name || text = l.name.map toLower).getD info

/-- The more talkative of two levels. -/
def lower (a b : Level) : Level := if a.rank ≤ b.rank then a else b

/-- A record of level `l` passes a threshold. -/
def passes (l threshold : Level) : Bool := threshold.rank ≤ l.rank

end Level

end JsxPresence.Log
