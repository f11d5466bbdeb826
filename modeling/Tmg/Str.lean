/-
# `Tmg.Str` — bytes, C strings and the `str_t` builder

The byte level under the whole development.  A template, a chunk and a Lua
string are lists of bytes (`Bytes`); a delimiter is a C string, that is a list of
bytes with no zero byte in it, and carries the proof (`CString`).

`str_t` is modelled by its content, the first `len` bytes of its buffer (`Tmg.StrBuf` has
the buffer, and says when that is what it holds):

| source | here |
| :-- | :-- |
| `str_push_chr(&s, c)` | `strPushChr s c`, any byte |
| `str_push(&s, p)` | `strPush s p`, what stands at `p` up to its first zero byte |
| `str_clear(&s)` | `[]` |

The second line is where a length-carrying Lua string loses its tail:
`str_push` measures its argument with `strlen`.
-/
import Mathlib.Data.List.Infix
import Mathlib.Data.List.TakeWhile
import Mathlib.Tactic.Common

namespace Tmg

abbrev Byte := UInt8

abbrev Bytes := List Byte

/-- A statement about the bytes of `s` is decided along `s`, not over all bytes. -/
instance (priority := high) decidableBytes (p : Byte → Prop) [DecidablePred p] (s : Bytes) :
    Decidable (∀ b ∈ s, p b) :=
  List.decidableBAll p s

/-- The bytes of an ASCII literal of the source. -/
def ascii (s : String) : Bytes := s.toList.map fun c => c.toNat.toUInt8

/-- `'\n'` -/
def nl : Byte := 10

/-- `'\r'` -/
def cr : Byte := 13

/-- `'\\'` -/
def bsl : Byte := 92

/-- `'='` -/
def eqs : Byte := 61

/-- `'['` -/
def lbr : Byte := 91

/-- `']'` -/
def rbr : Byte := 93

@[simp] theorem nl_ne_bsl : nl ≠ bsl := by decide

@[simp] theorem bsl_ne_nl : bsl ≠ nl := by decide

theorem rbr_ne_eqs : rbr ≠ eqs := by decide

/-! ## C strings -/

/-- What a C function sees at a pointer to `s`: the bytes before the first zero
byte. -/
def cstr (s : Bytes) : Bytes := s.takeWhile (· ≠ 0)

theorem cstr_eq_self_iff {s : Bytes} : cstr s = s ↔ 0 ∉ s := by
  rw [cstr, List.takeWhile_eq_self_iff]
  constructor
  · intro h h0
    simpa using h 0 h0
  · intro h x hx
    have hne : x ≠ 0 := fun hx0 => h (hx0 ▸ hx)
    simpa using hne

theorem length_cstr_le (s : Bytes) : (cstr s).length ≤ s.length :=
  (List.takeWhile_prefix _).length_le

/-- A C string: bytes up to, and without, the terminator. -/
structure CString where
  bytes : Bytes
  noNul : 0 ∉ bytes
deriving DecidableEq

/-- `strlen` -/
def CString.strlen (s : CString) : Nat := s.bytes.length

/-- The one-byte string `d`. -/
def CString.single (d : Byte) (h : d ≠ 0) : CString := ⟨[d], by simpa using h.symm⟩

/-- `strncmp(s, t, n)`, both arrays being followed by a terminator. -/
def strncmp : Bytes → Bytes → Nat → Int
  | _, _, 0 => 0
  | s, t, n + 1 =>
      let x := s.headD 0
      let y := t.headD 0
      if x ≠ y then (x.toNat : Int) - y.toNat
      else if x = 0 then 0
      else strncmp s.tail t.tail n

/-- Compared over its own length, `m` agrees with a string that holds no zero byte
exactly when it is a prefix of it. -/
theorem strncmp_eq_zero_iff :
    ∀ {m sep : Bytes}, 0 ∉ sep → m.length ≤ sep.length →
      (strncmp m sep m.length = 0 ↔ m <+: sep)
  | [], sep, _, _ => by simp [strncmp]
  | _ :: _, [], _, hlen => absurd hlen (by simp)
  | x :: m, y :: sep, h0, hlen => by
      simp only [List.mem_cons, not_or] at h0
      simp only [List.length_cons, Nat.add_le_add_iff_right] at hlen
      rw [List.length_cons, strncmp, List.cons_prefix_cons]
      by_cases hxy : x = y
      · subst hxy
        simp [Ne.symm h0.1, strncmp_eq_zero_iff h0.2 hlen]
      · have hne : (x.toNat : Int) - y.toNat ≠ 0 := by
          intro hd
          exact hxy (UInt8.toNat_inj.mp (by omega))
        simp [hxy, hne]

/-! ## The builder -/

/-- `str_push_chr` -/
def strPushChr (s : Bytes) (data : Byte) : Bytes := s ++ [data]

/-- `str_push`: `data` is measured by `strlen`. -/
def strPush (s data : Bytes) : Bytes := s ++ cstr data

end Tmg
