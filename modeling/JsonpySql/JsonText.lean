/-
JsonpySql/JsonText.lean

The text of JSON: what `json.dumps` writes, with `ensure_ascii=False` and
`json_default`, and what `json.loads` reads.

A layout says where a container is broken into lines; it is white space and
nothing else, which is a field of it.  The reader follows the scanner written
in C (`scanOnce`): strings character by character with their escapes, numbers
by `scanNumber`, objects as pairs of which the last one for a key counts.  It
runs on fuel, of which twice the length of the text is always enough
(`loads_ne_fuel`).  An error carries the text that was left where it was
found, and so its position.

What is written may be refused: an integer of too many digits, or containers
within each other too deep (`encode`); `dumps` is the text where nothing is.
A string here holds no surrogate: an escape for half a pair is read as the
replacement character.  Messages are those of the interpreter up to 3.12.
-/
import JsonpySql.JsonNumber

namespace PyJson

/-! ### White space -/

/-- The white space of JSON. -/
def isSpace (c : Char) : Bool := c = ' ' || c = '\t' || c = '\n' || c = '\r'

def skipSpace (cs : List Char) : List Char := cs.dropWhile isSpace

/-- Where the text of a container is broken, by the depth of its items: before
the first item and the closing bracket, and after every comma. -/
structure Layout where
  pad : ℕ → List Char
  gap : ℕ → List Char
  pad_space : ∀ depth, ∀ c ∈ pad depth, isSpace c = true
  gap_space : ∀ depth, ∀ c ∈ gap depth, isSpace c = true

/-- All on one line. -/
def Layout.compact : Layout where
  pad _ := []
  gap _ := [' ']
  pad_space := by simp
  gap_space := by simp [isSpace]

/-- A line for every item (`indent=n`). -/
def Layout.indented (n : ℕ) : Layout where
  pad depth := '\n' :: List.replicate (n * depth) ' '
  gap depth := '\n' :: List.replicate (n * depth) ' '
  pad_space := by simp +contextual [isSpace]
  gap_space := by simp +contextual [isSpace]

/-! ### Writing -/

/-- The letter after the backslash, for the characters that have one. -/
def shortEscape (c : Char) : Option Char :=
  if c = '\x22' then some '\x22'
  else if c = '\\' then some '\\'
  else if c = '\n' then some 'n'
  else if c = '\r' then some 'r'
  else if c = '\t' then some 't'
  else if c = '\x08' then some 'b'
  else if c = '\x0c' then some 'f'
  else none

/-- One character of a string. -/
def escapeChar (c : Char) : List Char :=
  match shortEscape c with
  | some e => ['\\', e]
  | none => if c.toNat < 0x20 then '\\' :: 'u' :: hexDigits 4 c.toNat else [c]

/-- A string in its quotes. -/
def writeString (s : String) : List Char := '\x22' :: s.toList.flatMap escapeChar ++ ['\x22']

def writeFloat : PyFloat → List Char
  | .nan => "NaN".toList
  | .inf neg => if neg then "-Infinity".toList else "Infinity".toList
  | x => x.repr.toList

def writeScalar (s : PyScalar) : List Char :=
  match jsonDefault s with
  | .none => "null".toList
  | .bool b => if b then "true".toList else "false".toList
  | .int n => (toString n).toList
  | .float x => writeFloat x
  | .str t => writeString t
  -- `json_default` has made a string of any other value
  | _ => []

variable (L : Layout)

mutual

/-- A value whose items are at a depth. -/
def write (depth : ℕ) : PyVal → List Char
  | .scalar s => writeScalar s
  | .list [] => ['[', ']']
  | .list (x :: xs) =>
      '[' :: (L.pad (depth + 1) ++ write (depth + 1) x ++ writeItems (depth + 1) xs ++
        L.pad depth ++ [']'])
  | .dict [] => ['\x7b', '\x7d']
  | .dict ((k, x) :: es) =>
      '\x7b' :: (L.pad (depth + 1) ++ writeString k ++ ':' :: ' ' :: write (depth + 1) x ++
        writeEntries (depth + 1) es ++ L.pad depth ++ ['\x7d'])

/-- The items after the first one. -/
def writeItems (depth : ℕ) : List PyVal → List Char
  | [] => []
  | x :: xs => ',' :: (L.gap depth ++ write depth x ++ writeItems depth xs)

def writeEntries (depth : ℕ) : List (String × PyVal) → List Char
  | [] => []
  | (k, x) :: es =>
      ',' :: (L.gap depth ++ writeString k ++ ':' :: ' ' :: write depth x ++
        writeEntries depth es)

end

/-- The text of a value. -/
def dumps (v : PyVal) : List Char := write L 0 v

/-! ### What is refused -/

/-- The limits of an interpreter: the digits of an integer that is made a text, and
the calls of the encoder within each other. -/
structure Limits where
  digits : ℕ
  depth : ℕ

/-- What `json.dumps` raises. -/
inductive DumpError
  | valueError
  | recursionError
deriving DecidableEq

mutual

/-- What the encoder raises at a value, with `left` calls to go. -/
def refused (lim : Limits) (left : ℕ) : PyVal → Option DumpError
  | .scalar s =>
      match s with
      | .int n => if lim.digits < (toString n.natAbs).length then some .valueError else none
      | .none | .bool _ | .float _ | .str _ => none
      -- one more call for what `json_default` makes of it
      | _ => if left = 0 then some .recursionError else none
  | .list xs => if left = 0 then some .recursionError else refusedItems lim (left - 1) xs
  | .dict es => if left = 0 then some .recursionError else refusedEntries lim (left - 1) es

/-- The first item that is refused ends the writing. -/
def refusedItems (lim : Limits) (left : ℕ) : List PyVal → Option DumpError
  | [] => none
  | x :: xs => (refused lim left x).or (refusedItems lim left xs)

def refusedEntries (lim : Limits) (left : ℕ) : List (String × PyVal) → Option DumpError
  | [] => none
  | (_, x) :: es => (refused lim left x).or (refusedEntries lim left es)

end

/-- `json.dumps`. -/
def encode (lim : Limits) (v : PyVal) : Except DumpError (List Char) :=
  match refused lim lim.depth v with
  | some e => .error e
  | none => .ok (dumps L v)

/-! ### Errors -/

/-- Why a text does not parse. -/
inductive JsonError
  | decode (msg : String) (rest : List Char)
  | fuel
deriving DecidableEq

/-- `str` of a `JSONDecodeError`: the message with the place where it was
found. -/
def decodeErrorStr (doc : List Char) (msg : String) (rest : List Char) : String :=
  let before := doc.take (doc.length - rest.length)
  let lineno := before.count '\n' + 1
  let colno := (before.rtakeWhile (· ≠ '\n')).length + 1
  msg ++ ": line " ++ toString lineno ++ " column " ++ toString colno ++ " (char " ++
    toString before.length ++ ")"

/-! ### Reading strings -/

def hexVal (c : Char) : Option ℕ :=
  if c.isDigit then some (c.toNat - '0'.toNat)
  else if 'a' ≤ c ∧ c ≤ 'f' then some (c.toNat - 'a'.toNat + 10)
  else if 'A' ≤ c ∧ c ≤ 'F' then some (c.toNat - 'A'.toNat + 10)
  else none

/-- Four hexadecimal digits with something after them. -/
def scanHex : List Char → Option (ℕ × List Char)
  | a :: b :: c :: d :: e :: rest =>
      match hexVal a, hexVal b, hexVal c, hexVal d with
      | some a, some b, some c, some d => some (((a * 16 + b) * 16 + c) * 16 + d, e :: rest)
      | _, _, _, _ => none
  | _ => none

def isHighSurrogate (n : ℕ) : Bool := 0xd800 ≤ n && n ≤ 0xdbff

def isLowSurrogate (n : ℕ) : Bool := 0xdc00 ≤ n && n ≤ 0xdfff

def joinSurrogates (high low : ℕ) : ℕ := 0x10000 + (high - 0xd800) * 0x400 + (low - 0xdc00)

/-- What stands for the letter after a backslash. -/
def unescape (c : Char) : Option Char :=
  if c = '\x22' ∨ c = '\\' ∨ c = '/' then some c
  else if c = 'b' then some '\x08'
  else if c = 'f' then some '\x0c'
  else if c = 'n' then some '\n'
  else if c = 'r' then some '\r'
  else if c = 't' then some '\t'
  else none

/-- What is kept of half a surrogate pair. -/
def loneSurrogate : Char := '\ufffd'

/-- The escape after `\u`. -/
def scanUnicode (h : List Char) : Except JsonError (Char × List Char) :=
  match scanHex h with
  | none => .error (.decode "Invalid \\uXXXX escape" ('u' :: h))
  | some (n, rest) =>
      if isHighSurrogate n then
        match rest with
        | '\\' :: 'u' :: h' =>
            if h'.length < 5 then .ok (loneSurrogate, rest)
            else
              match scanHex h' with
              | none => .error (.decode "Invalid \\uXXXX escape" ('u' :: h'))
              | some (m, rest') =>
                  if isLowSurrogate m then .ok (Char.ofNat (joinSurrogates n m), rest')
                  else .ok (loneSurrogate, rest)
        | _ => .ok (loneSurrogate, rest)
      else if isLowSurrogate n then .ok (loneSurrogate, rest)
      else .ok (Char.ofNat n, rest)

/-- One character of a string, or its closing quote; `start` is the text from
the opening quote on. -/
def scanUnit (start : List Char) : List Char → Except JsonError (Option Char × List Char)
  | [] => .error (.decode "Unterminated string starting at" start)
  | c :: cs =>
      if c = '\x22' then .ok (none, cs)
      else if c = '\\' then
        match cs with
        | [] => .error (.decode "Unterminated string starting at" start)
        | e :: rest =>
            if e = 'u' then
              match scanUnicode rest with
              | .error err => .error err
              | .ok (d, rest') => .ok (some d, rest')
            else
              match unescape e with
              | none => .error (.decode "Invalid \\escape" (c :: cs))
              | some d => .ok (some d, rest)
      else if c.toNat < 0x20 then .error (.decode "Invalid control character at" (c :: cs))
      else .ok (some c, cs)

/-- The characters up to the closing quote. -/
def scanUnits (start : List Char) : ℕ → List Char → Except JsonError (List Char × List Char)
  | 0, _ => .error .fuel
  | n + 1, cs =>
      match scanUnit start cs with
      | .error err => .error err
      | .ok (none, rest) => .ok ([], rest)
      | .ok (some c, rest) =>
          match scanUnits start n rest with
          | .error err => .error err
          | .ok (s, rest') => .ok (c :: s, rest')

/-- `scanstring`, after the opening quote. -/
def scanString (cs : List Char) : Except JsonError (String × List Char) :=
  match scanUnits ('\x22' :: cs) (cs.length + 1) cs with
  | .error err => .error err
  | .ok (s, rest) => .ok (String.ofList s, rest)

/-! ### Reading values -/

/-- The words that stand for a value. -/
def literals : List (List Char × PyScalar) := [
  ("null".toList, .none), ("true".toList, .bool true), ("false".toList, .bool false),
  ("NaN".toList, .float .nan), ("Infinity".toList, .float (.inf false)),
  ("-Infinity".toList, .float (.inf true))]

/-- A value that is neither a string nor a container. -/
def scanAtom (cs : List Char) : Except JsonError (PyVal × List Char) :=
  match literals.find? fun l => l.1.isPrefixOf cs with
  | some l => .ok (.scalar l.2, cs.drop l.1.length)
  | none =>
      match scanNumber cs with
      | some (n, rest) => .ok (.scalar n.value, rest)
      | none => .error (.decode "Expecting value" cs)

/-- A key with its colon, up to the value. -/
def scanKey : List Char → Except JsonError (String × List Char)
  | [] => .error (.decode "Expecting property name enclosed in double quotes" [])
  | c :: cs =>
      if c = '\x22' then
        match scanString cs with
        | .error err => .error err
        | .ok (k, rest) =>
            match skipSpace rest with
            | [] => .error (.decode "Expecting ':' delimiter" [])
            | d :: rest' =>
                if d = ':' then .ok (k, skipSpace rest')
                else .error (.decode "Expecting ':' delimiter" (d :: rest'))
      else .error (.decode "Expecting property name enclosed in double quotes" (c :: cs))

mutual

/-- `scan_once`: the value at the start of the text, and what follows it. -/
def scanOnce : ℕ → List Char → Except JsonError (PyVal × List Char)
  | 0, _ => .error .fuel
  | _ + 1, [] => .error (.decode "Expecting value" [])
  | n + 1, c :: cs =>
      if c = '\x22' then
        match scanString cs with
        | .error err => .error err
        | .ok (s, rest) => .ok (.str s, rest)
      else if c = '\x7b' then
        if (skipSpace cs).head? = some '\x7d' then .ok (.dict [], (skipSpace cs).tail)
        else
          match scanEntries n (skipSpace cs) with
          | .error err => .error err
          -- the last value for a key counts, at the place of the first
          | .ok (es, rest) => .ok (.dict (OrdDict.ofList es).entries, rest)
      else if c = '[' then
        if (skipSpace cs).head? = some ']' then .ok (.list [], (skipSpace cs).tail)
        else
          match scanItems n (skipSpace cs) with
          | .error err => .error err
          | .ok (xs, rest) => .ok (.list xs, rest)
      else scanAtom (c :: cs)

/-- The items up to the closing bracket. -/
def scanItems : ℕ → List Char → Except JsonError (List PyVal × List Char)
  | 0, _ => .error .fuel
  | n + 1, cs =>
      match scanOnce n cs with
      | .error err => .error err
      | .ok (x, rest) =>
          match skipSpace rest with
          | [] => .error (.decode "Expecting ',' delimiter" [])
          | c :: rest' =>
              if c = ']' then .ok ([x], rest')
              else if c = ',' then
                match scanItems n (skipSpace rest') with
                | .error err => .error err
                | .ok (xs, rest'') => .ok (x :: xs, rest'')
              else .error (.decode "Expecting ',' delimiter" (c :: rest'))

/-- The entries up to the closing brace. -/
def scanEntries : ℕ → List Char → Except JsonError (List (String × PyVal) × List Char)
  | 0, _ => .error .fuel
  | n + 1, cs =>
      match scanKey cs with
      | .error err => .error err
      | .ok (k, rest) =>
          match scanOnce n rest with
          | .error err => .error err
          | .ok (x, rest₁) =>
              match skipSpace rest₁ with
              | [] => .error (.decode "Expecting ',' delimiter" [])
              | c :: rest₂ =>
                  if c = '\x7d' then .ok ([(k, x)], rest₂)
                  else if c = ',' then
                    match scanEntries n (skipSpace rest₂) with
                    | .error err => .error err
                    | .ok (es, rest₃) => .ok ((k, x) :: es, rest₃)
                  else .error (.decode "Expecting ',' delimiter" (c :: rest₂))

end

/-- `json.loads`. -/
def loads (doc : List Char) : Except JsonError PyVal :=
  if doc.head? = some '\ufeff' then
    .error (.decode "Unexpected UTF-8 BOM (decode using utf-8-sig)" doc)
  else
    match scanOnce (2 * doc.length + 1) (skipSpace doc) with
    | .error err => .error err
    | .ok (v, rest) =>
        match skipSpace rest with
        | [] => .ok v
        | rest' => .error (.decode "Extra data" rest')

end PyJson
