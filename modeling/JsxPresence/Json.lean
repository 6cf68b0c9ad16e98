import JsxPresence.Bytes

namespace JsxPresence.Json

/-- Integers and no other numbers, texts of any bytes, and objects whose members are kept in the
byte-wise order of their keys. -/
inductive Value where
  | null
  | bool (b : Bool)
  | integer (n : Int)
  | string (s : Bytes)
  | array (items : List Value)
  | object (members : List (Bytes × Value))
deriving Inhabited

/-- Why a part of a value cannot be had. -/
inductive AccessError where
  | wrongType
  | outOfRange
deriving DecidableEq

namespace Value

def isNull : Value → Bool
  | null => true
  | _ => false

/-- The member with a key, if the value is an object that has one. -/
def get? : Value → Bytes → Option Value
  | object members, key => members.lookup key
  | _, _ => none

def contains (v : Value) (key : Bytes) : Bool := (v.get? key).isSome

/-- The number of items or members; a plain value has none. -/
def size : Value → Nat
  | array items => items.length
  | object members => members.length
  | _ => 0

def item : Value → Nat → Except AccessError Value
  | array items, i =>
    match items[i]? with
    | some v => .ok v
    | none => .error .outOfRange
  | _, _ => .error .wrongType

/-- Adds an item at the end. -/
def push : Value → Value → Except AccessError Value
  | array items, v => .ok (array (items ++ [v]))
  | _, _ => .error .wrongType

/-- Puts a member where its key belongs, in the stead of one with the same key. -/
def insertMember (key : Bytes) (v : Value) : List (Bytes × Value) → List (Bytes × Value)
  | [] => [(key, v)]
  | (k, w) :: rest =>
    if Bytes.less key k then (key, v) :: (k, w) :: rest
    else if key = k then (key, v) :: rest
    else (k, w) :: insertMember key v rest

def set : Value → Bytes → Value → Except AccessError Value
  | object members, key, v => .ok (object (insertMember key v members))
  | _, _, _ => .error .wrongType

/-- The object with these members; of two with one key the last counts. -/
def ofMembers (members : List (Bytes × Value)) : Value :=
  object (members.foldl (fun ms m => insertMember m.1 m.2 ms) [])

mutual

/-- Equal in type and in all parts. -/
def equal : Value → Value → Bool
  | null, null => true
  | bool a, bool b => a = b
  | integer a, integer b => a = b
  | string a, string b => a = b
  | array a, array b => equalItems a b
  | object a, object b => equalMembers a b
  | _, _ => false

def equalItems : List Value → List Value → Bool
  | [], [] => true
  | a :: s, b :: t => equal a b && equalItems s t
  | _, _ => false

def equalMembers : List (Bytes × Value) → List (Bytes × Value) → Bool
  | [], [] => true
  | (k, a) :: s, (l, b) :: t => k = l && equal a b && equalMembers s t
  | _, _ => false

end

end Value

end JsxPresence.Json
