import Mathlib

namespace EventPlatform.Json

/-- A JSON value. A number is kept as it is written, and an object keeps its members in order. -/
inductive Value
  | null
  | bool (b : Bool)
  | number (literal : String)
  | string (s : String)
  | array (elements : List Value)
  | object (members : List (String × Value))

def isSpace (c : Char) : Bool := c = ' ' || c = '\t' || c = '\n' || c = '\r'

def skipSpace (cs : List Char) : List Char := cs.dropWhile isSpace

def hexValue (c : Char) : Option ℕ :=
  if '0' ≤ c ∧ c ≤ '9' then some (c.toNat - '0'.toNat)
  else if 'a' ≤ c ∧ c ≤ 'f' then some (c.toNat - 'a'.toNat + 10)
  else if 'A' ≤ c ∧ c ≤ 'F' then some (c.toNat - 'A'.toNat + 10)
  else none

/-- The code unit that follows a `\u`. -/
def unit (a b c d : Char) : Option ℕ := do
  let a ← hexValue a
  let b ← hexValue b
  let c ← hexValue c
  let d ← hexValue d
  return ((a * 16 + b) * 16 + c) * 16 + d

/-- The code point of a pair of surrogates. -/
def surrogates (hi lo : ℕ) : Option Char :=
  if 0xD800 ≤ hi ∧ hi < 0xDC00 ∧ 0xDC00 ≤ lo ∧ lo < 0xE000 then
    some (Char.ofNat (0x10000 + (hi - 0xD800) * 0x400 + (lo - 0xDC00)))
  else none

/-- A lone surrogate is read as the replacement character. -/
def unitChar (n : ℕ) : Char := if 0xD800 ≤ n ∧ n < 0xE000 then '\ufffd' else Char.ofNat n

def escape : Char → Option Char
  | '"' => some '"'
  | '\\' => some '\\'
  | '/' => some '/'
  | 'b' => some '\x08'
  | 'f' => some '\x0c'
  | 'n' => some '\n'
  | 'r' => some '\r'
  | 't' => some '\t'
  | _ => none

/-- The rest of a string literal, after its opening quote. -/
def stringTail : List Char → Option (List Char × List Char)
  | [] => none
  | '"' :: cs => some ([], cs)
  | '\\' :: 'u' :: a :: b :: c :: d :: cs =>
    match unit a b c d with
    | none => none
    | some hi =>
      let single := (stringTail cs).map fun (s, rest) ↦ (unitChar hi :: s, rest)
      match cs with
      | '\\' :: 'u' :: a :: b :: c :: d :: cs =>
        match (unit a b c d).bind (surrogates hi) with
        | some ch => (stringTail cs).map fun (s, rest) ↦ (ch :: s, rest)
        | none => single
      | _ => single
  | '\\' :: e :: cs =>
    match escape e with
    | some ch => (stringTail cs).map fun (s, rest) ↦ (ch :: s, rest)
    | none => none
  | c :: cs =>
    if c = '\\' ∨ c.toNat < 0x20 then none
    else (stringTail cs).map fun (s, rest) ↦ (c :: s, rest)

def digits (cs : List Char) : List Char × List Char := cs.span Char.isDigit

/-- The integer part: a zero alone, or digits that do not start with one. -/
def numberInt : List Char → Option (List Char × List Char)
  | '0' :: cs => some (['0'], cs)
  | cs =>
    match digits cs with
    | ([], _) => none
    | (ds, rest) => some (ds, rest)

def numberFrac : List Char → Option (List Char × List Char)
  | '.' :: cs =>
    match digits cs with
    | ([], _) => none
    | (ds, rest) => some ('.' :: ds, rest)
  | cs => some ([], cs)

def numberExp : List Char → Option (List Char × List Char)
  | [] => some ([], [])
  | c :: cs =>
    if c = 'e' ∨ c = 'E' then
      let (sign, cs) : List Char × List Char := match cs with
        | '+' :: cs => (['+'], cs)
        | '-' :: cs => (['-'], cs)
        | cs => ([], cs)
      match digits cs with
      | ([], _) => none
      | (ds, rest) => some (c :: sign ++ ds, rest)
    else some ([], c :: cs)

def number (cs : List Char) : Option (Value × List Char) := do
  let (sign, cs) : List Char × List Char := match cs with
    | '-' :: cs => (['-'], cs)
    | cs => ([], cs)
  let (int, cs) ← numberInt cs
  let (frac, cs) ← numberFrac cs
  let (exp, cs) ← numberExp cs
  return (.number (String.ofList (sign ++ int ++ frac ++ exp)), cs)

mutual

/-- The value at the head of the text. The fuel bounds the recursion: twice the length of the text is enough. -/
def value : ℕ → List Char → Option (Value × List Char)
  | 0, _ => none
  | fuel + 1, cs =>
    match skipSpace cs with
    | '"' :: cs => (stringTail cs).map fun (s, rest) ↦ (.string (String.ofList s), rest)
    | '[' :: cs =>
      match skipSpace cs with
      | ']' :: rest => some (.array [], rest)
      | cs => (elements fuel cs).map fun (vs, rest) ↦ (.array vs, rest)
    | '{' :: cs =>
      match skipSpace cs with
      | '}' :: rest => some (.object [], rest)
      | cs => (members fuel cs).map fun (ms, rest) ↦ (.object ms, rest)
    | 'n' :: 'u' :: 'l' :: 'l' :: rest => some (.null, rest)
    | 't' :: 'r' :: 'u' :: 'e' :: rest => some (.bool true, rest)
    | 'f' :: 'a' :: 'l' :: 's' :: 'e' :: rest => some (.bool false, rest)
    | cs => number cs

def elements : ℕ → List Char → Option (List Value × List Char)
  | 0, _ => none
  | fuel + 1, cs => do
    let (v, cs) ← value fuel cs
    match skipSpace cs with
    | ',' :: cs =>
      let (vs, rest) ← elements fuel cs
      return (v :: vs, rest)
    | ']' :: rest => return ([v], rest)
    | _ => none

def members : ℕ → List Char → Option (List (String × Value) × List Char)
  | 0, _ => none
  | fuel + 1, cs =>
    match skipSpace cs with
    | '"' :: cs => do
      let (key, cs) ← stringTail cs
      match skipSpace cs with
      | ':' :: cs =>
        let (v, cs) ← value fuel cs
        match skipSpace cs with
        | ',' :: cs =>
          let (ms, rest) ← members fuel cs
          return ((String.ofList key, v) :: ms, rest)
        | '}' :: rest => return ([(String.ofList key, v)], rest)
        | _ => none
      | _ => none
    | _ => none

end

/-- The first value of a text, with what follows it: `json.Decoder.Decode`. -/
def first (text : String) : Option (Value × List Char) :=
  let cs := text.toList
  value (2 * cs.length + 2) cs

/-- The value that a whole text holds, as `json.Unmarshal` reads it. -/
def parse (text : String) : Option Value :=
  match first text with
  | some (v, rest) => if skipSpace rest = [] then some v else none
  | none => none

/-- Letters that differ in case only are alike, and so are the two other characters that fold to ASCII letters. -/
def foldChar (c : Char) : Char :=
  if 'a' ≤ c ∧ c ≤ 'z' then Char.ofNat (c.toNat - 32)
  else if c = '\u017f' then 'S'
  else if c = '\u212a' then 'K'
  else c

def foldName (s : String) : List Char := s.toList.map foldChar

structure Field (σ : Type) where
  name : String
  store : Value → σ → Option σ

/-- A string field. A null leaves it as it is. -/
def stringField {σ : Type} (name : String) (put : String → σ → σ) : Field σ where
  name
  store v s := match v with
    | .string x => some (put x s)
    | .null => some s
    | _ => none

def uintField {σ : Type} (name : String) (bits : ℕ) (put : ℕ → σ → σ) : Field σ where
  name
  store v s := match v with
    | .number literal =>
      let ds := literal.toList
      let n := ds.foldl (fun n c ↦ n * 10 + (c.toNat - '0'.toNat)) 0
      if ds.all Char.isDigit ∧ n < 2 ^ bits then some (put n s) else none
    | .null => some s
    | _ => none

variable {σ : Type}

def field (fields : List (Field σ)) (key : String) : Option (Field σ) :=
  match fields.find? fun f ↦ f.name = key with
  | some f => some f
  | none => fields.find? fun f ↦ foldName f.name = foldName key

/-- Decoding into a record. Unknown keys are refused when `strict` is set and skipped otherwise; a null leaves the
record as it is. -/
def decode (fields : List (Field σ)) (strict : Bool) (zero : σ) : Value → Option σ
  | .null => some zero
  | .object members => members.foldlM (fun s m ↦ match field fields m.1 with
      | some f => f.store m.2 s
      | none => if strict then none else some s) zero
  | _ => none

def decodeList (fields : List (Field σ)) (strict : Bool) (zero : σ) : Value → Option (List σ)
  | .null => some []
  | .array elements => elements.mapM (decode fields strict zero)
  | _ => none

end EventPlatform.Json
