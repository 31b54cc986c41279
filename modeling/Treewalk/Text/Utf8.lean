/-!
# UTF-8

Bytes are read as *pieces*: a character, a run of bytes that no character begins with, or the
start of a character that the end of the input cuts off. Both readings of a byte string are views
of its pieces: the strict one stops at the first piece that is no character, the lenient one puts
the replacement character in its place.
-/

namespace Treewalk.Text.Utf8

/-- What a reader meets at one place of a byte string. -/
inductive Piece where
  | char (c : Char)
  /-- The longest start of a character, of `width` bytes, that the next byte cannot continue. -/
  | broken (width : Nat)
  /-- The start of a character, of `width` bytes, at the very end of the input. -/
  | cut (width : Nat)
deriving DecidableEq, Repr

def Piece.width : Piece → Nat
  | .char c => c.utf8Size
  | .broken width => width
  | .cut width => width

/-- Stands for every piece that is not a character. -/
def replacement : Char := Char.ofNat 0xFFFD

/-- The character that the lenient reading gives for a piece. -/
def Piece.toChar : Piece → Char
  | .char c => c
  | _ => replacement

/-- A byte that may stand in third or fourth place of a character. -/
def continues (b : UInt8) : Bool :=
  0x80 ≤ b && b ≤ 0xBF

/-- A byte that may stand in second place after `lead`. The narrower ranges keep out encodings
that are longer than needed, surrogates, and code points above U+10FFFF. -/
def follows (lead b : UInt8) : Bool :=
  if lead = 0xE0 then 0xA0 ≤ b && b ≤ 0xBF
  else if lead = 0xED then 0x80 ≤ b && b ≤ 0x9F
  else if lead = 0xF0 then 0x90 ≤ b && b ≤ 0xBF
  else if lead = 0xF4 then 0x80 ≤ b && b ≤ 0x8F
  else continues b

/-- The number of bytes in a character that begins with `lead`; 0 where none does. -/
def lengthOf (lead : UInt8) : Nat :=
  if lead < 0x80 then 1
  else if lead < 0xC2 then 0
  else if lead < 0xE0 then 2
  else if lead < 0xF0 then 3
  else if lead < 0xF5 then 4
  else 0

/-- The low six bits of a byte after the first. -/
def low (b : UInt8) : Nat :=
  b.toNat % 64

def two (lead : UInt8) : List UInt8 → Piece × List UInt8
  | [] => (.cut 1, [])
  | b :: rest =>
    if follows lead b then (.char (Char.ofNat (lead.toNat % 32 * 64 + low b)), rest)
    else (.broken 1, b :: rest)

def three (lead : UInt8) : List UInt8 → Piece × List UInt8
  | [] => (.cut 1, [])
  | [b] => if follows lead b then (.cut 2, []) else (.broken 1, [b])
  | b :: c :: rest =>
    if follows lead b then
      if continues c then
        (.char (Char.ofNat (lead.toNat % 16 * 4096 + low b * 64 + low c)), rest)
      else (.broken 2, c :: rest)
    else (.broken 1, b :: c :: rest)

def four (lead : UInt8) : List UInt8 → Piece × List UInt8
  | [] => (.cut 1, [])
  | [b] => if follows lead b then (.cut 2, []) else (.broken 1, [b])
  | [b, c] =>
    if follows lead b then
      if continues c then (.cut 3, []) else (.broken 2, [c])
    else (.broken 1, [b, c])
  | b :: c :: d :: rest =>
    if follows lead b then
      if continues c then
        if continues d then
          (.char (Char.ofNat
            (lead.toNat % 8 * 262144 + low b * 4096 + low c * 64 + low d)), rest)
        else (.broken 3, d :: rest)
      else (.broken 2, c :: d :: rest)
    else (.broken 1, b :: c :: d :: rest)

/-- The piece that begins with `lead`, and the bytes after it. -/
def piece (lead : UInt8) (rest : List UInt8) : Piece × List UInt8 :=
  match lengthOf lead with
  | 1 => (.char (Char.ofNat lead.toNat), rest)
  | 2 => two lead rest
  | 3 => three lead rest
  | 4 => four lead rest
  | _ => (.broken 1, rest)

theorem two_length_le (lead : UInt8) (rest : List UInt8) :
    (two lead rest).2.length ≤ rest.length := by
  fun_cases two lead rest <;> simp

theorem three_length_le (lead : UInt8) (rest : List UInt8) :
    (three lead rest).2.length ≤ rest.length := by
  fun_cases three lead rest <;> simp
  omega

theorem four_length_le (lead : UInt8) (rest : List UInt8) :
    (four lead rest).2.length ≤ rest.length := by
  fun_cases four lead rest <;> simp
  omega

theorem piece_length_le (lead : UInt8) (rest : List UInt8) :
    (piece lead rest).2.length ≤ rest.length := by
  fun_cases piece lead rest
  · exact Nat.le_refl _
  · exact two_length_le lead rest
  · exact three_length_le lead rest
  · exact four_length_le lead rest
  · exact Nat.le_refl _

def pieces : List UInt8 → List Piece
  | [] => []
  | lead :: rest => (piece lead rest).1 :: pieces (piece lead rest).2
termination_by bytes => bytes.length
decreasing_by exact Nat.lt_succ_of_le (piece_length_le lead rest)

/-- The lenient reading. -/
def lossy (bytes : List UInt8) : String :=
  String.ofList ((pieces bytes).map Piece.toChar)

/-- Why a byte string is not text; `index` is where its valid part ends. -/
inductive Fault where
  | invalid (width index : Nat)
  | incomplete (index : Nat)
deriving DecidableEq, Repr

def Fault.message : Fault → String
  | .invalid width index =>
    "invalid utf-8 sequence of " ++ toString width ++ " bytes from index " ++ toString index
  | .incomplete index => "incomplete utf-8 byte sequence from index " ++ toString index

/-- The first piece that is no character, as a fault; the pieces start at `index`. -/
def fault? (index : Nat) : List Piece → Option Fault
  | [] => none
  | .char c :: rest => fault? (index + c.utf8Size) rest
  | .broken width :: _ => some (.invalid width index)
  | .cut _ :: _ => some (.incomplete index)

/-- The strict reading. -/
def decode (bytes : List UInt8) : Except Fault String :=
  match fault? 0 (pieces bytes) with
  | some fault => .error fault
  | none => .ok (lossy bytes)

def encode (text : String) : List UInt8 :=
  text.toUTF8.toList

end Treewalk.Text.Utf8
