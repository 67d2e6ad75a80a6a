import Mathlib.Algebra.BigOperators.Group.List.Basic
import Mathlib.Algebra.Order.BigOperators.Group.List
import Mathlib.Data.List.Count
import Mathlib.Data.List.GetD
import Mathlib.Tactic.Ring

/-!
# DEFLATE streams

The format of RFC 1951: bits of bytes and numbers, canonical Huffman codes, blocks, and what a
sequence of blocks stands for.
-/

namespace Deflate

/-! ## Bits -/

/-- The `width` low bits of a number, least significant first. -/
def bitsOf : ℕ → ℕ → List Bool
  | 0, _ => []
  | width + 1, v => decide (v % 2 = 1) :: bitsOf width (v / 2)

/-- The `width` low bits of a number, most significant first, as codes are packed. -/
def codeBits : ℕ → ℕ → List Bool
  | 0, _ => []
  | width + 1, v => decide (v / 2 ^ width % 2 = 1) :: codeBits width v

/-- The bits of a byte string. -/
def toBits (data : List UInt8) : List Bool := data.flatMap fun b => bitsOf 8 b.toNat

@[simp]
theorem length_bitsOf (width v : ℕ) : (bitsOf width v).length = width := by
  induction width generalizing v with
  | zero => rfl
  | succ width ih => rw [bitsOf, List.length_cons, ih]

@[simp]
theorem length_codeBits (width v : ℕ) : (codeBits width v).length = width := by
  induction width with
  | zero => rfl
  | succ width ih => rw [codeBits, List.length_cons, ih]

theorem bitsOf_add (m n v : ℕ) : bitsOf (m + n) v = bitsOf m v ++ bitsOf n (v / 2 ^ m) := by
  induction m generalizing v with
  | zero => simp [bitsOf]
  | succ m ih =>
    rw [Nat.succ_add, bitsOf, bitsOf, ih, List.cons_append, Nat.div_div_eq_div_mul, pow_succ']

/-- Only the low bits count. -/
theorem bitsOf_mod (width v : ℕ) : bitsOf width (v % 2 ^ width) = bitsOf width v := by
  induction width generalizing v with
  | zero => rfl
  | succ width ih =>
    have hlow : v % 2 ^ (width + 1) % 2 = v % 2 := Nat.mod_mod_of_dvd v ⟨2 ^ width, pow_succ' 2 width⟩
    have hhigh : v % 2 ^ (width + 1) / 2 = v / 2 % 2 ^ width := by
      rw [pow_succ', Nat.mod_mul_right_div_self]
    rw [bitsOf, bitsOf, hlow, hhigh, ih]

/-- The bits of a number below the width's bound are those of no other. -/
theorem eq_of_bitsOf_eq {width v w : ℕ} (hv : v < 2 ^ width) (hw : w < 2 ^ width)
    (h : bitsOf width v = bitsOf width w) : v = w := by
  induction width generalizing v w with
  | zero =>
    rw [pow_zero] at hv hw
    omega
  | succ width ih =>
    rw [bitsOf, bitsOf, List.cons.injEq, decide_eq_decide] at h
    rw [pow_succ] at hv hw
    have hhigh : v / 2 = w / 2 := ih (by omega) (by omega) h.2
    have hlow := h.1
    omega

/-- Bits put in front of a number of `n` bits. -/
theorem bitsOf_glue {n v : ℕ} (hv : v < 2 ^ n) (m w : ℕ) :
    bitsOf (n + m) (v + w * 2 ^ n) = bitsOf n v ++ bitsOf m w := by
  have hlow : (v + w * 2 ^ n) % 2 ^ n = v := by
    rw [Nat.add_mul_mod_self_right, Nat.mod_eq_of_lt hv]
  have hhigh : (v + w * 2 ^ n) / 2 ^ n = w := by
    rw [Nat.add_mul_div_right v w (Nat.two_pow_pos n), Nat.div_eq_of_lt hv, Nat.zero_add]
  rw [bitsOf_add, hhigh, ← bitsOf_mod n (v + w * 2 ^ n), hlow]

@[simp]
theorem toBits_nil : toBits [] = [] := rfl

@[simp]
theorem toBits_cons (b : UInt8) (data : List UInt8) :
    toBits (b :: data) = bitsOf 8 b.toNat ++ toBits data := rfl

@[simp]
theorem toBits_append (data rest : List UInt8) : toBits (data ++ rest) = toBits data ++ toBits rest :=
  List.flatMap_append

@[simp]
theorem length_toBits (data : List UInt8) : (toBits data).length = 8 * data.length := by
  induction data with
  | nil => rfl
  | cons b data ih =>
    rw [toBits_cons, List.length_append, length_bitsOf, ih, List.length_cons]
    ring

/-- Bytes begin with those whose bits theirs begin with. -/
theorem eq_append_of_toBits {data all : List UInt8} {bits : List Bool}
    (h : toBits all = toBits data ++ bits) : ∃ rest, all = data ++ rest ∧ toBits rest = bits := by
  induction data generalizing all with
  | nil => exact ⟨all, rfl, h⟩
  | cons b data ih =>
    match all with
    | [] =>
      have hlength := congrArg List.length h
      simp at hlength
      omega
    | b' :: all =>
      rw [toBits_cons, toBits_cons, List.append_assoc] at h
      have hsame := List.append_inj h (by rw [length_bitsOf, length_bitsOf])
      have hb : b' = b := UInt8.toNat_inj.mp (eq_of_bitsOf_eq b'.toNat_lt b.toNat_lt hsame.1)
      obtain ⟨rest, hrest, hbits⟩ := ih hsame.2
      exact ⟨rest, by rw [hb, hrest, List.cons_append], hbits⟩

/-- The bits of a number of 16 bits are those of its two bytes. -/
theorem bitsOf_sixteen {v : ℕ} :
    bitsOf 16 v = toBits [UInt8.ofNat (v % 256), UInt8.ofNat (v / 256)] := by
  have hlow : (UInt8.ofNat (v % 256)).toNat = v % 2 ^ 8 := by
    rw [UInt8.toNat_ofNat']
    exact Nat.mod_mod v 256
  have hhigh : (UInt8.ofNat (v / 256)).toNat = v / 2 ^ 8 % 2 ^ 8 := UInt8.toNat_ofNat'
  rw [toBits_cons, toBits_cons, toBits_nil, List.append_nil, hlow, hhigh, bitsOf_mod, bitsOf_mod,
    ← bitsOf_add]

/-! ## Codes -/

/-- How many symbols have a code of a length. A length of zero is no code. -/
def lengthCount (lengths : List ℕ) (len : ℕ) : ℕ := if len = 0 then 0 else lengths.count len

/-- The first code of a length: `next_code`. -/
def firstCode (lengths : List ℕ) : ℕ → ℕ
  | 0 => 0
  | len + 1 => (firstCode lengths len + lengthCount lengths len) * 2

/-- The code of a symbol. Codes of one length are in the order of their symbols. -/
def codeOf (lengths : List ℕ) (symbol : ℕ) : ℕ :=
  firstCode lengths (lengths.getD symbol 0) +
    (lengths.take symbol).count (lengths.getD symbol 0)

/-- The bits of a symbol. -/
def codeword (lengths : List ℕ) (symbol : ℕ) : List Bool :=
  codeBits (lengths.getD symbol 0) (codeOf lengths symbol)

/-- The share of all codes of `maxLength` bits that the codes take up. -/
def kraft (maxLength : ℕ) (lengths : List ℕ) : ℕ :=
  (lengths.map fun len => if len = 0 then 0 else 2 ^ (maxLength - len)).sum

/-- Lengths of at most 15 bits that have codes of which none begins another: a complete code, or one
that leaves codes over. -/
structure IsCode (lengths : List ℕ) : Prop where
  le_max : ∀ len ∈ lengths, len ≤ 15
  kraft_le : kraft 15 lengths ≤ 2 ^ 15

/-- The symbol has a code. -/
def HasCode (lengths : List ℕ) (symbol : ℕ) : Prop := lengths.getD symbol 0 ≠ 0

section Code

variable {lengths : List ℕ} {symbol : ℕ}

theorem HasCode.lt (h : HasCode lengths symbol) : symbol < lengths.length := by
  by_contra hge
  exact h (List.getD_eq_default lengths 0 (by omega))

theorem HasCode.getD_eq (h : HasCode lengths symbol) : lengths.getD symbol 0 = lengths.get ⟨symbol, h.lt⟩ :=
  List.getD_eq_getElem lengths 0 h.lt

theorem HasCode.mem (h : HasCode lengths symbol) : lengths.getD symbol 0 ∈ lengths := by
  rw [h.getD_eq]
  exact List.getElem_mem h.lt

/-- The codes before a symbol's own of its length are not all of that length. -/
theorem HasCode.rank_lt (h : HasCode lengths symbol) :
    (lengths.take symbol).count (lengths.getD symbol 0) < lengthCount lengths (lengths.getD symbol 0) := by
  have hsplit : lengths = lengths.take symbol ++ lengths.get ⟨symbol, h.lt⟩ :: lengths.drop (symbol + 1) := by
    rw [List.get_eq_getElem, List.getElem_cons_drop, List.take_append_drop]
  have hcount := congrArg (List.count (lengths.getD symbol 0)) hsplit
  rw [List.count_append, ← h.getD_eq, List.count_cons_self] at hcount
  unfold lengthCount
  rw [if_neg h, hcount]
  omega

/-- The codes of a length are taken up from its first one on. -/
theorem firstCode_le (lengths : List ℕ) {len k : ℕ} (hk : len < k) :
    (firstCode lengths len + lengthCount lengths len) * 2 ^ (k - len) ≤ firstCode lengths k := by
  induction k, hk using Nat.le_induction with
  | base => simp [firstCode]
  | succ k hk ih =>
    have hpow : 2 ^ (k + 1 - len) = 2 ^ (k - len) * 2 := by
      rw [Nat.succ_sub (by omega), pow_succ]
    rw [hpow, ← Nat.mul_assoc, firstCode]
    apply Nat.mul_le_mul_right
    omega

/-- The share of the codes of a length up to `n`. -/
def kraftUpTo (n maxLength : ℕ) (lengths : List ℕ) : ℕ :=
  (lengths.map fun len => if len = 0 ∨ n < len then 0 else 2 ^ (maxLength - len)).sum

theorem kraftUpTo_zero (maxLength : ℕ) (lengths : List ℕ) : kraftUpTo 0 maxLength lengths = 0 := by
  apply List.sum_eq_zero
  intro share hshare
  obtain ⟨len, -, rfl⟩ := List.mem_map.mp hshare
  exact if_pos (by omega)

theorem kraftUpTo_succ (n maxLength : ℕ) (lengths : List ℕ) :
    kraftUpTo (n + 1) maxLength lengths =
      kraftUpTo n maxLength lengths + lengthCount lengths (n + 1) * 2 ^ (maxLength - (n + 1)) := by
  unfold kraftUpTo lengthCount
  rw [if_neg n.succ_ne_zero]
  induction lengths with
  | nil => simp
  | cons len lengths ih =>
    rw [List.map_cons, List.map_cons, List.sum_cons, List.sum_cons, ih, List.count_cons]
    by_cases hlen : len = n + 1
    · subst hlen
      simp
      ring
    · have hsame : (len = 0 ∨ n + 1 < len) ↔ (len = 0 ∨ n < len) := by omega
      simp only [hsame, beq_iff_eq, hlen, if_false]
      ring

theorem kraftUpTo_le (n maxLength : ℕ) (lengths : List ℕ) :
    kraftUpTo n maxLength lengths ≤ kraft maxLength lengths := by
  unfold kraftUpTo kraft
  apply List.sum_le_sum
  intro len _
  by_cases hlen : len = 0
  · rw [if_pos (Or.inl hlen), if_pos hlen]
  · rw [if_neg hlen]
    split
    · exact Nat.zero_le _
    · exact le_rfl

/-- The codes up to a length, as the first codes count them. -/
theorem firstCode_add_count (lengths : List ℕ) {n maxLength : ℕ} (hn : n ≤ maxLength) :
    (firstCode lengths n + lengthCount lengths n) * 2 ^ (maxLength - n) =
      kraftUpTo n maxLength lengths := by
  induction n with
  | zero => simp [firstCode, lengthCount, kraftUpTo_zero]
  | succ n ih =>
    have hpow : 2 ^ (maxLength - n) = 2 * 2 ^ (maxLength - (n + 1)) := by
      rw [← pow_succ', show maxLength - n = maxLength - (n + 1) + 1 by omega]
    rw [kraftUpTo_succ, ← ih (by omega), firstCode, hpow]
    ring

/-- There are no more codes of a length than its bits allow. -/
theorem IsCode.firstCode_add_le (hcode : IsCode lengths) {len : ℕ} (hlen : len ≤ 15) :
    firstCode lengths len + lengthCount lengths len ≤ 2 ^ len := by
  have hshare := firstCode_add_count lengths hlen
  have hle : kraftUpTo len 15 lengths ≤ 2 ^ 15 := (kraftUpTo_le len 15 lengths).trans hcode.kraft_le
  have hpow : 2 ^ 15 = 2 ^ len * 2 ^ (15 - len) := by
    rw [← pow_add, Nat.add_sub_cancel' hlen]
  rw [← hshare, hpow] at hle
  exact Nat.le_of_mul_le_mul_right hle (Nat.two_pow_pos _)

theorem codeOf_lt_next (h : HasCode lengths symbol) :
    codeOf lengths symbol < firstCode lengths (lengths.getD symbol 0) +
      lengthCount lengths (lengths.getD symbol 0) := by
  unfold codeOf
  exact Nat.add_lt_add_left h.rank_lt _

theorem IsCode.codeOf_lt (hcode : IsCode lengths) (h : HasCode lengths symbol) :
    codeOf lengths symbol < 2 ^ lengths.getD symbol 0 :=
  (codeOf_lt_next h).trans_le (hcode.firstCode_add_le (hcode.le_max _ h.mem))

end Code

/-! ## Literals and copies -/

/-- The extra bits of a length code, counted from 257 on. -/
def lengthBits (code : ℕ) : ℕ := if code < 8 ∨ code = 28 then 0 else (code - 4) / 4

/-- The first length of a length code. The last one is 258 alone. -/
def lengthBase (code : ℕ) : ℕ :=
  if code = 28 then 258 else 3 + ((List.range code).map fun k => 2 ^ lengthBits k).sum

/-- The extra bits of a distance code. -/
def distanceBits (code : ℕ) : ℕ := if code < 2 then 0 else (code - 2) / 2

/-- The first distance of a distance code. -/
def distanceBase (code : ℕ) : ℕ := 1 + ((List.range code).map fun k => 2 ^ distanceBits k).sum

/-- A length and a distance, by their codes and extra bits. -/
structure Copy where
  lengthCode : Fin 29
  lengthExtra : Fin (2 ^ lengthBits lengthCode)
  distanceCode : Fin 30
  distanceExtra : Fin (2 ^ distanceBits distanceCode)

def Copy.length (c : Copy) : ℕ := lengthBase c.lengthCode + c.lengthExtra

def Copy.distance (c : Copy) : ℕ := distanceBase c.distanceCode + c.distanceExtra

inductive Token
  | literal (b : UInt8)
  | copy (c : Copy)

/-- The `length` bytes from `distance` back on. A run that is longer than the distance repeats. -/
def copied (distance length : ℕ) (out : List UInt8) : List UInt8 :=
  (List.range length).map fun i => out.getD (out.length - distance + i % distance) 0

/-- What follows from a token. -/
def Token.append (out : List UInt8) : Token → List UInt8
  | .literal b => out ++ [b]
  | .copy c => out ++ copied c.distance c.length out

/-- The symbols of a token have codes, and its distance is within the output so far. -/
def Token.Valid (literals distances : List ℕ) (out : List UInt8) : Token → Prop
  | .literal b => HasCode literals b.toNat
  | .copy c => HasCode literals (257 + c.lengthCode) ∧ HasCode distances c.distanceCode ∧
      c.distance ≤ out.length

def Token.bits (literals distances : List ℕ) : Token → List Bool
  | .literal b => codeword literals b.toNat
  | .copy c => codeword literals (257 + c.lengthCode) ++ bitsOf (lengthBits c.lengthCode) c.lengthExtra
      ++ codeword distances c.distanceCode ++ bitsOf (distanceBits c.distanceCode) c.distanceExtra

/-- The tokens of a block are valid one after another. -/
def TokensValid (literals distances : List ℕ) : List UInt8 → List Token → Prop
  | _, [] => True
  | out, t :: ts => t.Valid literals distances out ∧ TokensValid literals distances (t.append out) ts

/-- The tokens of a block and its end. -/
def tokenBits (literals distances : List ℕ) (tokens : List Token) : List Bool :=
  tokens.flatMap (Token.bits literals distances) ++ codeword literals 256

/-! ## Code lengths -/

/-- What the code lengths of a dynamic block are written with. -/
inductive LengthSymbol
  | length (len : Fin 16)
  | again (extra : Fin 4)
  | zeros (extra : Fin 8)
  | manyZeros (extra : Fin 128)

def LengthSymbol.symbol : LengthSymbol → ℕ
  | length len => len
  | again _ => 16
  | zeros _ => 17
  | manyZeros _ => 18

def LengthSymbol.bits (codeLengths : List ℕ) (s : LengthSymbol) : List Bool :=
  codeword codeLengths s.symbol ++
    match s with
    | length _ => []
    | again extra => bitsOf 2 extra
    | zeros extra => bitsOf 3 extra
    | manyZeros extra => bitsOf 7 extra

/-- The lengths after a symbol. The one before it must be there to be repeated. -/
def LengthSymbol.extend (lengths : List ℕ) : LengthSymbol → Option (List ℕ)
  | length len => some (lengths ++ [len.val])
  | again extra => lengths.getLast?.map fun len => lengths ++ List.replicate (3 + extra) len
  | zeros extra => some (lengths ++ List.replicate (3 + extra) 0)
  | manyZeros extra => some (lengths ++ List.replicate (11 + extra) 0)

/-- The lengths after some symbols. -/
def extendAll : List ℕ → List LengthSymbol → Option (List ℕ)
  | lengths, [] => some lengths
  | lengths, s :: ss => (s.extend lengths).bind fun lengths => extendAll lengths ss

/-- The order that the lengths of the code for code lengths come in. -/
def codeOrder : List ℕ := [16, 17, 18, 0, 8, 7, 9, 6, 10, 5, 11, 4, 12, 3, 13, 2, 14, 1, 15]

/-- The head of a dynamic block: the code for code lengths, of which `shown` lengths are written,
and the lengths. -/
structure Header where
  codeLengths : List ℕ
  shown : ℕ
  symbols : List LengthSymbol
  literals : List ℕ
  distances : List ℕ

structure Header.Valid (h : Header) : Prop where
  count : h.codeLengths.length = 19
  small : ∀ len ∈ h.codeLengths, len < 8
  isCode : IsCode h.codeLengths
  four_le_shown : 4 ≤ h.shown
  shown_le : h.shown ≤ 19
  hidden : ∀ symbol ∈ codeOrder.drop h.shown, h.codeLengths.getD symbol 0 = 0
  hasCode : ∀ s ∈ h.symbols, HasCode h.codeLengths s.symbol
  extendAll_eq : extendAll [] h.symbols = some (h.literals ++ h.distances)
  le_literals : 257 ≤ h.literals.length
  literals_le : h.literals.length ≤ 286
  le_distances : 1 ≤ h.distances.length
  distances_le : h.distances.length ≤ 30
  isCode_literals : IsCode h.literals
  isCode_distances : IsCode h.distances
  hasEnd : HasCode h.literals 256

def Header.bits (h : Header) : List Bool :=
  bitsOf 5 (h.literals.length - 257) ++ bitsOf 5 (h.distances.length - 1) ++ bitsOf 4 (h.shown - 4)
    ++ (codeOrder.take h.shown).flatMap (fun symbol => bitsOf 3 (h.codeLengths.getD symbol 0))
    ++ h.symbols.flatMap (LengthSymbol.bits h.codeLengths)

/-! ## Blocks -/

/-- A block. The bits before the lengths of a stored one are ignored, up to the next byte. -/
inductive Block
  | stored (padding : List Bool) (data : List UInt8)
  | fixed (tokens : List Token)
  | dynamic (header : Header) (tokens : List Token)

/-- The lengths of the fixed code for literals and lengths. -/
def fixedLiterals : List ℕ :=
  List.replicate 144 8 ++ List.replicate 112 9 ++ List.replicate 24 7 ++ List.replicate 8 8

def fixedDistances : List ℕ := List.replicate 30 5

/-- A block at a bit of the stream, after some output. -/
def Block.Valid (pos : ℕ) (out : List UInt8) : Block → Prop
  | .stored padding data =>
    padding.length < 8 ∧ 8 ∣ pos + 3 + padding.length ∧ data.length < 2 ^ 16
  | .fixed tokens => TokensValid fixedLiterals fixedDistances out tokens
  | .dynamic header tokens =>
    header.Valid ∧ TokensValid header.literals header.distances out tokens

def Block.type : Block → ℕ
  | .stored _ _ => 0
  | .fixed _ => 1
  | .dynamic _ _ => 2

def Block.body : Block → List Bool
  | .stored padding data => padding ++ bitsOf 16 data.length ++ bitsOf 16 (2 ^ 16 - 1 - data.length)
      ++ toBits data
  | .fixed tokens => tokenBits fixedLiterals fixedDistances tokens
  | .dynamic header tokens => header.bits ++ tokenBits header.literals header.distances tokens

def Block.bits (last : Bool) (b : Block) : List Bool :=
  bitsOf 1 (if last then 1 else 0) ++ bitsOf 2 b.type ++ b.body

/-- The output after a block. -/
def Block.append (out : List UInt8) : Block → List UInt8
  | .stored _ data => out ++ data
  | .fixed tokens | .dynamic _ tokens => tokens.foldl Token.append out

/-- Bits from `pos` on that are blocks, the last one marked, and what they make of the output. -/
inductive Stream : ℕ → List UInt8 → List Bool → List UInt8 → Prop
  | last {pos : ℕ} {out : List UInt8} {b : Block} (h : b.Valid pos out) :
    Stream pos out (b.bits true) (b.append out)
  | more {pos : ℕ} {out result : List UInt8} {b : Block} {bits : List Bool} (h : b.Valid pos out)
    (hrest : Stream (pos + (b.bits false).length) (b.append out) bits result) :
    Stream pos out (b.bits false ++ bits) result

/-- The two bytes of a zlib header: the method in the low bits, and a check over both. -/
def ZlibHeader (b₀ b₁ : UInt8) : Prop := b₀.toNat % 16 = 8 ∧ (256 * b₀.toNat + b₁.toNat) % 31 = 0

/-- What may come before a stream: a zlib header, or nothing where the stream does not look like it
begins with one. -/
def Headed (head payload : List UInt8) : Prop :=
  (head = [] ∧ ∀ b₀ b₁ rest, payload = b₀ :: b₁ :: rest → ¬ZlibHeader b₀ b₁) ∨
    ∃ b₀ b₁, head = [b₀, b₁] ∧ ZlibHeader b₀ b₁

end Deflate
