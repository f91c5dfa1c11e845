import SharpTokens.Json.Basic

/-!
# Writing JSON

Values are written without space, or with each item on a line of its own. In strings only quotes,
backslashes and control characters are escaped.
-/

namespace SharpTokens.Json

/-! ### Strings -/

def hexDigit (n : Nat) : UInt8 := if n < 10 then byte '0' + n.toUInt8 else byte 'a' +
    (n - 10).toUInt8

def escaped (c : Char) : Bytes :=
  match c with
  | '"' => [byte '\\', byte '"']
  | '\\' => [byte '\\', byte '\\']
  | '\x08' => [byte '\\', byte 'b']
  | '\x0C' => [byte '\\', byte 'f']
  | '\n' => [byte '\\', byte 'n']
  | '\r' => [byte '\\', byte 'r']
  | '\t' => [byte '\\', byte 't']
  | c =>
    if c.toNat < 0x20 then
      [byte '\\', byte 'u', byte '0', byte '0', hexDigit (c.toNat / 16), hexDigit (c.toNat % 16)]
    else String.utf8EncodeChar c

def writeText (out : Array UInt8) (s : String) : Array UInt8 :=
  (s.toList.foldl (fun (out : Array UInt8) c => out ++ escaped c) (out.push (byte '"'))).push
    (byte '"')

/-- A string that makes no text, behind what was written before. -/
def writeGarbled (out : Array UInt8) : Array UInt8 := out ++ ascii "\"\\ud800\""

def writeKey (out : Array UInt8) : Option String → Array UInt8
  | some s => writeText out s
  | none => writeGarbled out

/-! ### Layout -/

/-- How values are laid out: on one line, or with items on lines of their own, two blanks further in
for each level. -/
inductive Layout where
  | compact
  | indented
  deriving DecidableEq, Repr

namespace Layout

def lineBreak (l : Layout) (level : Nat) (out : Array UInt8) : Array UInt8 :=
  match l with
  | .compact => out
  | .indented => out.push (byte '\n') ++ List.replicate (2 * level) (byte ' ')

def colon (l : Layout) (out : Array UInt8) : Array UInt8 :=
  match l with
  | .compact => out.push (byte ':')
  | .indented => out ++ ascii ": "

end Layout

/-! ### Values -/

mutual

/-- A value at some level, behind what was written before. -/
def writeTo (l : Layout) (level : Nat) (out : Array UInt8) : Json → Array UInt8
  | .null => out ++ ascii "null"
  | .bool true => out ++ ascii "true"
  | .bool false => out ++ ascii "false"
  | .natural n => out ++ ascii (toString n)
  | .otherNumber => out ++ ascii "-1"
  | .text s => writeText out s
  | .garbled => writeGarbled out
  | .array [] => out ++ ascii "[]"
  | .array (item :: items) =>
    let out := l.lineBreak (level + 1) (out.push (byte '['))
    let out := writeItems l level (writeTo l (level + 1) out item) items
    (l.lineBreak level out).push (byte ']')
  | .object [] => (out.push (byte '\x7b')).push (byte '\x7d')
  | .object (member :: members) =>
    let out := l.lineBreak (level + 1) (out.push (byte '\x7b'))
    let out := writeMembers l level (writeMember l level out member) members
    (l.lineBreak level out).push (byte '\x7d')

def writeItems (l : Layout) (level : Nat) (out : Array UInt8) : List Json → Array UInt8
  | [] => out
  | item :: items =>
    let out := l.lineBreak (level + 1) (out.push (byte ','))
    writeItems l level (writeTo l (level + 1) out item) items

def writeMember (l : Layout) (level : Nat) (out : Array UInt8) : Option String × Json → Array UInt8
  | (key, item) => writeTo l (level + 1) (l.colon (writeKey out key)) item

def writeMembers (l : Layout) (level : Nat) (out : Array UInt8) :
    List (Option String × Json) → Array UInt8
  | [] => out
  | member :: members =>
    let out := l.lineBreak (level + 1) (out.push (byte ','))
    writeMembers l level (writeMember l level out member) members

end

def render (l : Layout) (json : Json) : Bytes := (writeTo l 0 #[] json).toList

end SharpTokens.Json
