/-
# `Tmg.Lua.Char` — character types

LuaJIT does not ask the C library what a letter or a blank is.  It has a table with a bit
for each type of character (`charBits`), and the types that are named in patterns are sums of
these bits.  The range by which other modules know the blanks is the table's (`isa_space`).
-/
import Tmg.Report

namespace Tmg.Lua

open Lib

/-! ## The bits -/

/-- `LJ_CHAR_CNTRL` -/
def charCntrl : Byte := 0x01

/-- `LJ_CHAR_SPACE` -/
def charSpace : Byte := 0x02

/-- `LJ_CHAR_PUNCT` -/
def charPunct : Byte := 0x04

/-- `LJ_CHAR_DIGIT` -/
def charDigit : Byte := 0x08

/-- `LJ_CHAR_XDIGIT` -/
def charXdigit : Byte := 0x10

/-- `LJ_CHAR_UPPER` -/
def charUpper : Byte := 0x20

/-- `LJ_CHAR_LOWER` -/
def charLower : Byte := 0x40

/-- `LJ_CHAR_ALPHA` -/
def charAlpha : Byte := charLower ||| charUpper

/-- `LJ_CHAR_ALNUM` -/
def charAlnum : Byte := charAlpha ||| charDigit

/-- `LJ_CHAR_GRAPH` -/
def charGraph : Byte := charAlnum ||| charPunct

/-- `lj_char_bits`, without the entry for the end of the input; sixteen characters a line. -/
def charTable : List Byte :=
  [  1,   1,   1,   1,   1,   1,   1,   1,   1,   3,   3,   3,   3,   3,   1,   1,
     1,   1,   1,   1,   1,   1,   1,   1,   1,   1,   1,   1,   1,   1,   1,   1,
     2,   4,   4,   4,   4,   4,   4,   4,   4,   4,   4,   4,   4,   4,   4,   4,
   152, 152, 152, 152, 152, 152, 152, 152, 152, 152,   4,   4,   4,   4,   4,   4,
     4, 176, 176, 176, 176, 176, 176, 160, 160, 160, 160, 160, 160, 160, 160, 160,
   160, 160, 160, 160, 160, 160, 160, 160, 160, 160, 160,   4,   4,   4,   4, 132,
     4, 208, 208, 208, 208, 208, 208, 192, 192, 192, 192, 192, 192, 192, 192, 192,
   192, 192, 192, 192, 192, 192, 192, 192, 192, 192, 192,   4,   4,   4,   4,   1]
    ++ List.replicate 128 128

/-- The bits of a character. -/
def charBits (c : Byte) : Byte := charTable.getD c.toNat 0

/-- `lj_char_isa` -/
def isa (c t : Byte) : Bool := charBits c &&& t ≠ 0

/-! ## The ranges -/

/-- What holds of the numbers below 256 holds of the bytes. -/
theorem forall_byte {p : Byte → Prop} (h : ∀ n < 256, p (UInt8.ofNat n)) (c : Byte) : p c := by
  have hc := h c.toNat c.toNat_lt
  rwa [UInt8.ofNat_toNat] at hc

theorem isa_space (c : Byte) : isa c charSpace = isspace c := by
  revert c
  exact forall_byte (by decide +kernel)

end Tmg.Lua
