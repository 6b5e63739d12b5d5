import IsaBackend.Text.Digits

/-!
# Names in C

A source name becomes a C identifier that starts with the letter z. After it, z introduces an escape
for every character that C does not allow, and for z itself.
-/

namespace IsaBackend.CName

def apostrophe : Char := Char.ofNat 39

/-- Whether a character stands for itself in a C identifier. -/
def isPlain (c : Char) : Bool :=
  ('a' ≤ c && c ≤ 'z') || ('A' ≤ c && c ≤ 'Z') || ('0' ≤ c && c ≤ '9') || c = '_'

def encodeChar (c : Char) : List Char :=
  if c = 'z' then ['z', 'z']
  else if c = '#' then ['z', '3']
  else if c = '.' then ['z', '2']
  else if c = apostrophe then ['z', '7']
  else if c = '?' then ['z', '8']
  else if isPlain c then [c]
  else 'z' :: 'u' :: Nat.toDigits 16 c.toNat ++ ['_']

def encode (name : String) : String := String.ofList ('z' :: name.toList.flatMap encodeChar)

/-- The character of a code point written in hexadecimal digits, which a plus sign may precede. -/
def codePoint? (digits : List Char) : Option Char :=
  let digits := match digits with
    | '+' :: rest => rest
    | _ => digits
  if digits.isEmpty then none
  else do
    let code ← Digits.extend? 16 0 digits
    if code.isValidChar then return Char.ofNat code else none

/-- Where in an encoded name the reader is. -/
inductive Mode where
  | plain
  /-- Behind the letter that introduces an escape. -/
  | escape
  /-- Inside a code point, behind some of its digits. -/
  | code (digits : List Char)

/-- Read encoded characters. A code point ends with an underscore or with the name. -/
def decodeChars : Mode → List Char → Option (List Char)
  | .plain, [] => some []
  | .plain, c :: rest =>
    if c = 'z' then decodeChars .escape rest else (decodeChars .plain rest).map (c :: ·)
  | .escape, [] => none
  | .escape, c :: rest =>
    if c = 'z' then (decodeChars .plain rest).map ('z' :: ·)
    else if c = '3' then (decodeChars .plain rest).map ('#' :: ·)
    else if c = '2' then (decodeChars .plain rest).map ('.' :: ·)
    else if c = '7' then (decodeChars .plain rest).map (apostrophe :: ·)
    else if c = '8' then (decodeChars .plain rest).map ('?' :: ·)
    else if c = 'u' then decodeChars (.code []) rest
    else none
  | .code digits, [] => (codePoint? digits).map ([·])
  | .code digits, c :: rest =>
    if c = '_' then do
      let decoded ← codePoint? digits
      (decodeChars .plain rest).map (decoded :: ·)
    else decodeChars (.code (digits ++ [c])) rest

/-- The source name of a C identifier, if it has one. -/
def decode (identifier : String) : Option String :=
  match identifier.toList with
  | 'z' :: rest => (decodeChars .plain rest).map String.ofList
  | _ => none

end IsaBackend.CName
