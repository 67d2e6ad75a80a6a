import Bg3le.Bytes
import Mathlib.Algebra.Group.Nat.Defs
import Mathlib.Logic.Function.Basic

/-!
# Finding code: `resolve.cpp`

A target is described by its bytes. `resolveCode` looks for them around the place where they were
recorded, then in the whole of `.text`, and remembers what it found.
-/

namespace Bg3le
namespace Resolve

/-- `kWindow` -/
def window : ℕ := 2 ^ 20

/-- A `std::uintptr_t`. -/
def wrap (n : ℕ) : ℕ := n % 2 ^ 64

/-! ## Patterns -/

def hexDigit (c : UInt8) : Option UInt8 :=
  if 0x30 ≤ c ∧ c ≤ 0x39 then some (c - 0x30)
  else if 0x41 ≤ c ∧ c ≤ 0x46 then some (c - 0x41 + 10)
  else if 0x61 ≤ c ∧ c ≤ 0x66 then some (c - 0x61 + 10)
  else none

/-- `isspace` in the C locale. -/
def isSpace (c : UInt8) : Bool := c == 0x20 || (0x09 ≤ c && c ≤ 0x0d)

/-- `strtol` of two characters in base 16, where it takes both. It skips space and takes a sign,
so that the first of them need not be a digit. -/
def strtol (a b : UInt8) : Option UInt8 :=
  (hexDigit b).bind fun low =>
    match hexDigit a with
    | some high => some (16 * high + low)
    | none =>
      if isSpace a || a == 0x2b then some low
      else if a == 0x2d then some (0 - low)
      else none

/-- `Pattern`: a byte, or none where any will do, and the first place that has one. -/
structure Pattern where
  bytes : List (Option UInt8)
  anchor : ℕ
  fixed : (bytes[anchor]?.join).isSome
deriving DecidableEq

/-- The byte at the anchor. -/
def Pattern.first (pat : Pattern) : UInt8 := (pat.bytes[pat.anchor]?.join).get pat.fixed

/-- The loop of `parse`, over what is before the text's NUL. -/
def parseBytes : Bytes → Option (List (Option UInt8))
  | [] => some []
  | 0x20 :: text => parseBytes text
  | 0x3f :: 0x3f :: text => (parseBytes text).map (none :: ·)
  | a :: b :: text => (strtol a b).bind fun v => (parseBytes text).map (some v :: ·)
  | [_] => none

def parse (text : Bytes) : Option Pattern :=
  (parseBytes text).bind fun bytes =>
    let anchor := bytes.findIdx Option.isSome
    if fixed : (bytes[anchor]?.join).isSome then some ⟨bytes, anchor, fixed⟩ else none

/-! ## Searching -/

/-- What is loaded: the memory by address, where the image is, and `text_range`. -/
structure Image where
  memory : ℕ → UInt8
  loadBias : ℕ
  text : ℕ
  size : ℕ

def Image.textEnd (image : Image) : ℕ := wrap (image.text + image.size)

/-- `match_at`, at an address. -/
def matchAt (memory : ℕ → UInt8) (code : ℕ) (pat : Pattern) : Bool :=
  (List.range pat.bytes.length).all fun i =>
    match pat.bytes[i]?.join with
    | some byte => memory (code + i) == byte
    | none => true

def memchr (memory : ℕ → UInt8) (byte : UInt8) : ℕ → ℕ → Option ℕ
  | _, 0 => none
  | p, n + 1 => if memory p = byte then some p else memchr memory byte (p + 1) n

/-- The loop of `scan`, of so many turns at most. -/
def scanFrom (image : Image) (pat : Pattern) (last : ℕ) : ℕ → ℕ → ℕ × ℕ → ℕ × ℕ
  | 0, _, counted => counted
  | turns + 1, p, (hits, found) =>
    if p ≤ last then
      match memchr image.memory pat.first p (last - p + 1) with
      | none => (hits, found)
      | some p =>
        let code := p - pat.anchor
        if matchAt image.memory code pat then
          if 1 < hits + 1 then (hits + 1, found)
          else scanFrom image pat last turns (p + 1) (hits + 1, code - image.loadBias)
        else scanFrom image pat last turns (p + 1) (hits, found)
    else (hits, found)

/-- `scan`: the matches in `[lo, hi)`, up to the second, and `*found`. -/
def scan (image : Image) (pat : Pattern) (lo hi found : ℕ) : ℕ × ℕ :=
  let len := pat.bytes.length
  if hi < wrap (lo + len) then (0, found)
  else
    let p := image.loadBias + lo + pat.anchor
    let last := image.loadBias + hi - len + pat.anchor
    scanFrom image pat last (last + 1 - p) p (0, found)

/-! ## Resolving -/

/-- `Sig` -/
structure Sig where
  name : Bytes
  recorded : UInt64
  pattern : Bytes
  start : Int64

/-- `g_cache` -/
abbrev Cache := Bytes → Option UInt64

/-- `load_cache`, from the lines of the build's file, unless it is loaded. -/
def loadCache (lines : List (Bytes × UInt64)) (cache : Option Cache) : Cache :=
  cache.getD
    (lines.foldl (fun cache line => Function.update cache line.1 (some line.2)) fun _ => none)

/-- Where a target that is at the offset has its pattern. -/
def Sig.place (sig : Sig) (off : UInt64) : ℕ := (off - sig.start.toUInt64).toNat

/-- `fits` -/
def fits (image : Image) (pat : Pattern) (place : ℕ) : Bool :=
  image.text ≤ place && wrap (place + pat.bytes.length) ≤ image.textEnd

/-- Where the window around the recorded place starts. -/
def windowLo (image : Image) (rec : ℕ) : ℕ :=
  if wrap (image.text + window) < rec then rec - window else image.text

/-- Where the window around the recorded place ends. -/
def windowHi (image : Image) (rec : ℕ) : ℕ :=
  if wrap (rec + window) < image.textEnd then wrap (rec + window) else image.textEnd

/-- The pattern is at the place. -/
def there (image : Image) (pat : Pattern) (place : ℕ) : Bool :=
  fits image pat place && matchAt image.memory (wrap (image.loadBias + place)) pat

/-- What is found of the pattern, and how often. -/
def search (image : Image) (pat : Pattern) (rec : ℕ) : ℕ × ℕ :=
  let near := scan image pat (windowLo image rec) (windowHi image rec) 0
  if there image pat rec then near
  else if near.1 = 0 then scan image pat image.text image.textEnd near.2
  else near

/-- `resolve_code`, and the cache that it leaves; the image is none where it has no `.text`. -/
def resolveCode (image : Option Image) (lines : List (Bytes × UInt64)) (cache : Option Cache)
    (sig : Sig) : UInt64 × Option Cache :=
  match parse sig.pattern with
  | none => (0, cache)
  | some pat =>
    match image with
    | none => (0, cache)
    | some image =>
      let loaded := loadCache lines cache
      match (loaded sig.name).filter fun off => there image pat (sig.place off) with
      | some off => (off, loaded)
      | none =>
        let (hits, found) := search image pat (sig.place sig.recorded)
        if hits ≠ 1 then (0, loaded)
        else
          let off := found.toUInt64 + sig.start.toUInt64
          (off, Function.update loaded sig.name (some off))

end Resolve
end Bg3le
