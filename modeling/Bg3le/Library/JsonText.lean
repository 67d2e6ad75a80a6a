import Bg3le.Library.NumberText

/-!
# JSON text

What document a text of bytes stands for, and a reader that finds it.
-/

namespace JsonText

open NumberText

/-- A double; the sign of a zero stands beside its value. -/
@[ext] structure Double where
  value : Number
  minusZero : Bool
  exact : toDouble value = value
  zero : minusZero = true → value = ofRat 0
deriving DecidableEq

/-- A number with a point or an exponent is a double, any other one an integer. -/
inductive Document where
  | null
  | boolean (b : Bool)
  | integer (i : ℤ)
  | double (x : Double)
  | string (s : List UInt8)
  | array (items : List Document)
  | object (members : List (List UInt8 × Document))

/-! ## Numbers -/

/-- The double next to a number that is written with or without a minus sign. -/
def doubleOf (negative : Bool) (x : ℚ) : Double where
  value := toDouble (ofRat (if negative then -x else x))
  minusZero := negative && toDouble (ofRat (if negative then -x else x)) = ofRat 0
  exact := toDouble_toDouble _
  zero h := by simpa using (Bool.and_eq_true_iff.mp h).2

/-- The digits before a point: no zero stands in front of others. -/
def isWhole : List UInt8 → Bool
  | [] => false
  | c :: rest => (c :: rest).all decimal.isDigit && (c != 0x30 || rest.isEmpty)

def isExponent : List UInt8 → Bool
  | [] => false
  | c :: rest => lower c == 0x65 && !(signOf rest).2.isEmpty && (signOf rest).2.all decimal.isDigit

/-- What may follow the digits of a double. -/
def isTail : List UInt8 → Bool
  | [] => false
  | c :: rest =>
    if c = 0x2e then !(rest.takeWhile decimal.isDigit).isEmpty &&
      ((rest.dropWhile decimal.isDigit).isEmpty || isExponent (rest.dropWhile decimal.isDigit))
    else isExponent (c :: rest)

def minusOf : List UInt8 → Bool × List UInt8
  | [] => (false, [])
  | c :: rest => if c = 0x2d then (true, rest) else (false, c :: rest)

/-- The number of a text. -/
def numberOf (text : List UInt8) : Option Document :=
  let (negative, rest) := minusOf text
  let whole := rest.takeWhile decimal.isDigit
  let tail := rest.dropWhile decimal.isDigit
  if !isWhole whole then none
  else if tail.isEmpty then
    some (.integer (if negative then -decimal.value whole else decimal.value whole))
  else if isTail tail then (decimal.magnitude rest).map fun x => .double (doubleOf negative x)
  else none

/-- The characters that numbers are written with. -/
def isNumeric (c : UInt8) : Bool :=
  decimal.isDigit c || c == 0x2b || c == 0x2d || c == 0x2e || lower c == 0x65

/-! ## Strings -/

/-- What a backslash and one letter stand for. -/
def short (c : UInt8) : Option UInt8 :=
  if c = 0x22 ∨ c = 0x5c ∨ c = 0x2f then some c
  else if c = 0x62 then some 0x08
  else if c = 0x66 then some 0x0c
  else if c = 0x6e then some 0x0a
  else if c = 0x72 then some 0x0d
  else if c = 0x74 then some 0x09
  else none

/-- Four hexadecimal digits. -/
def codeUnit (u : List UInt8) : Option ℕ :=
  if u.length = 4 then (u.mapM digitOf).map fun ds => ds.foldl (fun n d => n * 16 + d) 0 else none

/-- What stands behind `\u`: a code unit, or a pair of surrogates. -/
def unicode (u : List UInt8) : Option (List UInt8) :=
  if u.length = 4 then
    (codeUnit u).bind fun n =>
      if 0xd800 ≤ n ∧ n < 0xe000 then none else some (String.utf8EncodeChar (Char.ofNat n))
  else if (u.drop 4).take 2 = [0x5c, 0x75] then
    (codeUnit (u.take 4)).bind fun high => (codeUnit (u.drop 6)).bind fun low =>
      if 0xd800 ≤ high ∧ high < 0xdc00 ∧ 0xdc00 ≤ low ∧ low < 0xe000 then
        some (String.utf8EncodeChar
          (Char.ofNat (0x10000 + (high - 0xd800) * 0x400 + (low - 0xdc00))))
      else none
  else none

/-- The characters between the quotation marks, and what they stand for. -/
inductive Chars : List UInt8 → List UInt8 → Prop
  | nil : Chars [] []
  | plain {c : UInt8} {s t : List UInt8} (hc : 0x20 ≤ c) (hquote : c ≠ 0x22) (hback : c ≠ 0x5c)
      (h : Chars s t) : Chars (c :: s) (c :: t)
  | short {b c : UInt8} {s t : List UInt8} (hc : short c = some b) (h : Chars s t) :
      Chars (b :: s) (0x5c :: c :: t)
  | unicode {b u s t : List UInt8} (hu : unicode u = some b) (h : Chars s t) :
      Chars (b ++ s) (0x5c :: 0x75 :: (u ++ t))

/-! ## Documents -/

def isBlank (c : UInt8) : Bool := c == 0x20 || c == 0x09 || c == 0x0a || c == 0x0d

def Blank (w : List UInt8) : Prop := ∀ c ∈ w, isBlank c

mutual

/-- A text of a document. -/
inductive Text : Document → List UInt8 → Prop
  | null : Text .null [0x6e, 0x75, 0x6c, 0x6c]
  | trueWord : Text (.boolean true) [0x74, 0x72, 0x75, 0x65]
  | falseWord : Text (.boolean false) [0x66, 0x61, 0x6c, 0x73, 0x65]
  | number {d : Document} {t : List UInt8} (h : numberOf t = some d) : Text d t
  | string {s t : List UInt8} (h : Chars s t) : Text (.string s) (0x22 :: (t ++ [0x22]))
  | empty {w : List UInt8} (hw : Blank w) : Text (.array []) (0x5b :: (w ++ [0x5d]))
  | array {ds : List Document} {t : List UInt8} (h : Items ds t) :
      Text (.array ds) (0x5b :: (t ++ [0x5d]))
  | emptyObject {w : List UInt8} (hw : Blank w) : Text (.object []) (0x7b :: (w ++ [0x7d]))
  | object {ms : List (List UInt8 × Document)} {t : List UInt8} (h : Members ms t) :
      Text (.object ms) (0x7b :: (t ++ [0x7d]))

/-- Some documents, with commas between them. -/
inductive Items : List Document → List UInt8 → Prop
  | last {d : Document} {w t w' : List UInt8} (hw : Blank w) (h : Text d t) (hw' : Blank w') :
      Items [d] (w ++ (t ++ w'))
  | cons {d : Document} {ds : List Document} {w t w' r : List UInt8} (hw : Blank w) (h : Text d t)
      (hw' : Blank w') (hr : Items ds r) : Items (d :: ds) (w ++ (t ++ (w' ++ 0x2c :: r)))

inductive Members : List (List UInt8 × Document) → List UInt8 → Prop
  | last {s : List UInt8} {d : Document} {v k x w t w' : List UInt8} (hv : Blank v) (hk : Chars s k)
      (hx : Blank x) (hw : Blank w) (h : Text d t) (hw' : Blank w') :
      Members [(s, d)] (v ++ 0x22 :: (k ++ 0x22 :: (x ++ 0x3a :: (w ++ (t ++ w')))))
  | cons {s : List UInt8} {d : Document} {ms : List (List UInt8 × Document)}
      {v k x w t w' r : List UInt8} (hv : Blank v) (hk : Chars s k) (hx : Blank x) (hw : Blank w)
      (h : Text d t) (hw' : Blank w') (hr : Members ms r) :
      Members ((s, d) :: ms)
        (v ++ 0x22 :: (k ++ 0x22 :: (x ++ 0x3a :: (w ++ (t ++ (w' ++ 0x2c :: r))))))

end

/-! ## A reader -/

/-- The rest of a string, up to its quotation mark, and what follows. -/
def readString : ℕ → List UInt8 → Option (List UInt8 × List UInt8)
  | 0, _ => none
  | _ + 1, [] => none
  | fuel + 1, c :: rest =>
    if c = 0x22 then some ([], rest)
    else if c = 0x5c then
      if rest.head? = some 0x75 then
        match unicode ((rest.drop 1).take 4), unicode ((rest.drop 1).take 10) with
        | some b, _ => (readString fuel (rest.drop 5)).map fun r => (b ++ r.1, r.2)
        | none, some b => (readString fuel (rest.drop 11)).map fun r => (b ++ r.1, r.2)
        | none, none => none
      else (rest.head?.bind short).bind fun b =>
        (readString fuel (rest.drop 1)).map fun r => (b :: r.1, r.2)
    else if c < 0x20 then none
    else (readString fuel rest).map fun r => (c :: r.1, r.2)

/-- A word that stands for a document, if it comes next. -/
def readWord (word text : List UInt8) (d : Document) : Option (Document × List UInt8) :=
  if word <+: text then some (d, text.drop word.length) else none

mutual

def readValue : ℕ → List UInt8 → Option (Document × List UInt8)
  | 0, _ => none
  | fuel + 1, text =>
    match text.dropWhile isBlank with
    | [] => none
    | c :: rest =>
      if c = 0x22 then (readString (rest.length + 1) rest).map fun r => (.string r.1, r.2)
      else if c = 0x5b then
        if (rest.dropWhile isBlank).head? = some 0x5d then
          some (.array [], (rest.dropWhile isBlank).drop 1)
        else (readItems fuel rest).map fun r => (.array r.1, r.2)
      else if c = 0x7b then
        if (rest.dropWhile isBlank).head? = some 0x7d then
          some (.object [], (rest.dropWhile isBlank).drop 1)
        else (readMembers fuel rest).map fun r => (.object r.1, r.2)
      else if c = 0x6e then readWord [0x75, 0x6c, 0x6c] rest .null
      else if c = 0x74 then readWord [0x72, 0x75, 0x65] rest (.boolean true)
      else if c = 0x66 then readWord [0x61, 0x6c, 0x73, 0x65] rest (.boolean false)
      else (numberOf ((c :: rest).takeWhile isNumeric)).map fun d =>
        (d, (c :: rest).dropWhile isNumeric)

/-- The documents up to the bracket that closes them. -/
def readItems : ℕ → List UInt8 → Option (List Document × List UInt8)
  | 0, _ => none
  | fuel + 1, text =>
    (readValue fuel text).bind fun r =>
      match r.2.dropWhile isBlank with
      | [] => none
      | c :: rest =>
        if c = 0x5d then some ([r.1], rest)
        else if c = 0x2c then (readItems fuel rest).map fun q => (r.1 :: q.1, q.2)
        else none

def readMembers : ℕ → List UInt8 → Option (List (List UInt8 × Document) × List UInt8)
  | 0, _ => none
  | fuel + 1, text =>
    if (text.dropWhile isBlank).head? = some 0x22 then
      (readString text.length ((text.dropWhile isBlank).drop 1)).bind fun k =>
        if (k.2.dropWhile isBlank).head? = some 0x3a then
          (readValue fuel ((k.2.dropWhile isBlank).drop 1)).bind fun r =>
            match r.2.dropWhile isBlank with
            | [] => none
            | c :: rest =>
              if c = 0x7d then some ([(k.1, r.1)], rest)
              else if c = 0x2c then (readMembers fuel rest).map fun q => ((k.1, r.1) :: q.1, q.2)
              else none
        else none
    else none

end

/-- The document that a whole text stands for. -/
def read (text : List UInt8) : Option Document :=
  (readValue (text.length + 1) text).bind fun r =>
    if (r.2.dropWhile isBlank).isEmpty then some r.1 else none

end JsonText
