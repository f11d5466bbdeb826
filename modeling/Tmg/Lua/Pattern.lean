/-
# `Tmg.Lua.Pattern` — the pattern matcher

`match` of the string library walks a pattern with one pointer and the subject with another,
and calls itself for what stands behind an item where it may have to come back.  A pointer is
what stands from it on: `s` of the subject, `p` of the pattern, which ends at its first zero
byte.  The captures are passed on, and not written, since a match that fails undoes what it
wrote.

| source | here |
| :-- | :-- |
| `s < ms->src_end`, `*s`, `s + 1` | `s ≠ []`, `s.head?`, `s.tail` |
| `ms->capture[0 .. level - 1]` | `caps` |
| `classend(ms, p)`, and the item from `p` to there | `classEnd p` |
| `match(ms, s, p)` | `enter depth (matchInit src (depth + 1) caps s p)` |
| `goto init` | `matchInit src depth caps s p` |

`matchInit_cons` says what `match` does at an item: it reads the item (`nextItem`), which may
be malformed, and runs it (`Item.run`).
-/
import Tmg.Lib.Backtrack
import Tmg.Lua.Char

namespace Tmg.Lua

open Lib

/-! ## Characters of a pattern -/

/-- `L_ESC` -/
def esc : Byte := 37

/-- The errors of the matcher. -/
inductive PatError where
  /-- `malformed pattern (ends with '%')` -/
  | endsWithEsc
  /-- `malformed pattern (missing ']')` -/
  | missingBracket
  /-- `unbalanced pattern` -/
  | unbalanced
  /-- `missing '[' after '%f' in pattern` -/
  | missingSet
  /-- `invalid capture index` -/
  | captureIndex
  /-- `invalid pattern capture` -/
  | noOpenCapture
  /-- `too many captures` -/
  | tooManyCaptures
  /-- `unfinished capture` -/
  | unfinishedCapture
  /-- `pattern too complex` -/
  | tooComplex
  /-- what a function raises that `gsub` calls, or `invalid replacement value (a %s)` -/
  | replacement (msg : Bytes)
deriving DecidableEq, Repr

/-- `match_class_map` -/
def matchClassMap : List Byte :=
  [0, charAlpha, 0, charCntrl, charDigit, 0, 0, charGraph, 0, 0, 0, 0,
    charLower, 0, 0, 0, charPunct, 0, 0, charSpace, 0,
    charUpper, 0, charAlnum, charXdigit, 0, 0, 0, 0, 0, 0, 0]

/-- `match_class` -/
def matchClass (c cl : Byte) : Bool :=
  if cl &&& 0xc0 = 0x40 then
    let t := matchClassMap.getD (cl &&& 0x1f).toNat 0
    if t ≠ 0 then (if cl &&& 0x20 ≠ 0 then isa c t else !isa c t)
    else if cl = 122 then c = 0
    else if cl = 90 then c ≠ 0
    else cl = c
  else cl = c

/-- The loop of `matchbracketclass`: an entry of the set is met. -/
def inSet (c : Byte) : Bytes → Bool
  | [] => false
  | [x] => if x = esc then matchClass c rbr else x = c
  | [x, y] => if x = esc then matchClass c y else x = c || inSet c [y]
  | x :: y :: z :: rest =>
      if x = esc then matchClass c y || inSet c (z :: rest)
      else if y = 45 then (x ≤ c && c ≤ z) || inSet c rest
      else x = c || inSet c (y :: z :: rest)

/-- `matchbracketclass`, `set` being what stands between the brackets. -/
def matchBracketClass (c : Byte) (set : Bytes) : Bool :=
  if set.head? = some 94 then !inSet c set.tail else inSet c set

/-- `singlematch`, `item` being the bytes from `p` to `ep`. -/
def singleMatch (c : Byte) (item : Bytes) : Bool :=
  match item with
  | [] => false
  | x :: rest =>
      if x = 46 then true
      else if x = esc then matchClass c (rest.headD 0)
      else if x = lbr then matchBracketClass c rest.dropLast
      else x = c

/-- The loop of `classend` that looks for a `]`: what is behind it. -/
def setEnd : Bytes → Except PatError Bytes
  | [] => .error .missingBracket
  | [_] => .error .missingBracket
  | c :: d :: p =>
      if c = esc then (if p.head? = some rbr then .ok p.tail else setEnd p)
      else if d = rbr then .ok p
      else setEnd (d :: p)

/-- `classend`, at `c :: p` -/
def classEnd (c : Byte) (p : Bytes) : Except PatError Bytes :=
  if c = esc then
    match p with
    | [] => .error .endsWithEsc
    | _ :: p => .ok p
  else if c = lbr then setEnd (if p.head? = some 94 then p.tail else p)
  else .ok p

/-- The bytes from `p` to `ep`. -/
def upTo (p ep : Bytes) : Bytes := p.take (p.length - ep.length)

/-! ## Captures -/

/-- The `len` of a capture. -/
inductive CapLen where
  | unfinished
  | position
  | closed (n : Nat)
deriving DecidableEq, Repr

/-- An entry of `ms->capture`. -/
structure Capture where
  init : Bytes
  len : CapLen
deriving DecidableEq, Repr

/-- A match: its end, and the captures. -/
abbrev Match := Bytes × List Capture

/-- `LUA_MAXCAPTURES` -/
def maxCaptures : Nat := 32

/-- `LJ_MAX_XLEVEL` -/
def maxXLevel : Nat := 200

/-- The entry to `match`, at `depth`. -/
def enter (depth : Nat) (x : Search PatError Match) : Search PatError Match :=
  if maxXLevel < depth + 1 then .error .tooComplex else x

/-- `check_capture`, of the digit `l` -/
def checkCapture (caps : List Capture) (l : Byte) : Except PatError Capture :=
  if l < 49 then .error .captureIndex
  else
    match caps[(l - 49).toNat]? with
    | none => .error .captureIndex
    | some cap => if cap.len = .unfinished then .error .captureIndex else .ok cap

/-- `capture_to_close`, among the captures below `level`. -/
def captureToClose (caps : List Capture) : Nat → Except PatError Nat
  | 0 => .error .noOpenCapture
  | level + 1 =>
      if (caps[level]?.map Capture.len) = some .unfinished then .ok level
      else captureToClose caps level

/-- `start_capture` -/
def startCapture (caps : List Capture) (s : Bytes) (what : CapLen)
    (k : List Capture → Search PatError Match) : Search PatError Match :=
  if maxCaptures ≤ caps.length then .error .tooManyCaptures else k (caps ++ [⟨s, what⟩])

/-- `end_capture` -/
def endCapture (caps : List Capture) (s : Bytes) (k : List Capture → Search PatError Match) :
    Search PatError Match :=
  match captureToClose caps caps.length with
  | .error e => .error e
  | .ok l => k (caps.modify l fun cap => ⟨cap.init, .closed (cap.init.length - s.length)⟩)

/-- `match_capture` -/
def matchCapture (caps : List Capture) (s : Bytes) (l : Byte) : Except PatError (Option Bytes) :=
  match checkCapture caps l with
  | .error e => .error e
  | .ok cap =>
      match cap.len with
      | .closed n =>
          .ok (if n ≤ s.length ∧ cap.init.take n = s.take n then some (s.drop n) else none)
      | _ => .ok none

/-! ## The matcher -/

/-- The loop of `matchbalance`. -/
def balanceFrom (b e : Byte) : Nat → Bytes → Option Bytes
  | _, [] => none
  | cont, c :: s =>
      if c = e then (if cont = 1 then some s else balanceFrom b e (cont - 1) s)
      else if c = b then balanceFrom b e (cont + 1) s
      else balanceFrom b e cont s

/-- `matchbalance`, behind its errors. -/
def matchBalance (s : Bytes) (b e : Byte) : Option Bytes :=
  match s with
  | [] => none
  | c :: s => if c = b then balanceFrom b e 1 s else none

/-- `previous`, the byte before `s` -/
def previous (src s : Bytes) : Byte :=
  if s.length = src.length then 0 else src.getD (src.length - s.length - 1) 0

/-- The test of a frontier: `*s` is the terminator at the end of the subject. -/
def frontier (src s set : Bytes) : Bool :=
  !matchBracketClass (previous src s) set && matchBracketClass (s.headD 0) set

/-- `m`: the item matches at `s`. -/
def matchesHere (item s : Bytes) : Bool :=
  match s with
  | [] => false
  | c :: _ => singleMatch c item

/-- `max_expand` -/
def maxExpand (item s : Bytes) (k : Bytes → Search PatError Match) : Search PatError Match :=
  longestFirst k s (s.takeWhile fun c => singleMatch c item).length

/-- `min_expand` -/
def minExpand (item s : Bytes) (k : Bytes → Search PatError Match) : Search PatError Match :=
  shortestFirst (fun c => singleMatch c item) k s

theorem setEnd_lt : ∀ {p ep : Bytes}, setEnd p = .ok ep → ep.length < p.length
  | [], _, h => by simp [setEnd] at h
  | [_], _, h => by simp [setEnd] at h
  | c :: d :: p, ep, h => by
      rw [setEnd] at h
      split_ifs at h
      · obtain rfl := Except.ok.inj h
        simp only [List.length_cons, List.length_tail]
        omega
      · have hlt := setEnd_lt h
        simp only [List.length_cons]
        omega
      · obtain rfl := Except.ok.inj h
        simp only [List.length_cons]
        omega
      · have hlt := setEnd_lt h
        simp only [List.length_cons] at hlt ⊢
        omega

/-- An item has one byte at least. -/
theorem classEnd_le {c : Byte} {p ep : Bytes} (h : classEnd c p = .ok ep) : ep.length ≤ p.length := by
  unfold classEnd at h
  split_ifs at h
  · cases p with
    | nil => simp at h
    | cons d p =>
        obtain rfl := Except.ok.inj h
        simp
  · have hlt := setEnd_lt h
    rw [List.length_tail] at hlt
    omega
  · exact (setEnd_lt h).le
  · obtain rfl := Except.ok.inj h
    exact le_rfl

/-- The entries of the set from its `[` to its `]`. -/
def setOf (item : Bytes) : Bytes := item.tail.dropLast

/-- `match`, behind `init:` -/
def matchInit (src : Bytes) (depth : Nat) (caps : List Capture) (s : Bytes) :
    Bytes → Search PatError Match
  | [] => .ok (some (s, caps))
  | c :: p =>
      if c = 40 then
        if p.head? = some 41 then
          startCapture caps s .position fun caps =>
            enter depth (matchInit src (depth + 1) caps s p.tail)
        else
          startCapture caps s .unfinished fun caps =>
            enter depth (matchInit src (depth + 1) caps s p)
      else if c = 41 then
        endCapture caps s fun caps => enter depth (matchInit src (depth + 1) caps s p)
      else if c = esc ∧ p.head? = some 98 then
        match _h : p.tail with
        | b :: e :: rest => (matchBalance s b e).elim (.ok none) fun s => matchInit src depth caps s rest
        | _ => .error .unbalanced
      else if c = esc ∧ p.head? = some 102 then
        match _h : p.tail with
        | [] => .error .missingSet
        | d :: q =>
            if d ≠ lbr then .error .missingSet
            else
              match _hep : classEnd d q with
              | .error e => .error e
              | .ok ep =>
                  if frontier src s (setOf (upTo (d :: q) ep)) then matchInit src depth caps s ep
                  else .ok none
      else if c = esc ∧ p.head?.any isDigit then
        match matchCapture caps s (p.headD 0) with
        | .error e => .error e
        | .ok r => r.elim (.ok none) fun s => matchInit src depth caps s p.tail
      else if c = 36 ∧ p = [] then
        if s = [] then .ok (some (s, caps)) else .ok none
      else
        match _hep : classEnd c p with
        | .error e => .error e
        | .ok ep =>
            let item := upTo (c :: p) ep
            if ep.head? = some 63 then
              attempt
                (if matchesHere item s then enter depth (matchInit src (depth + 1) caps s.tail ep.tail)
                  else .ok none)
                (matchInit src depth caps s ep.tail)
            else if ep.head? = some 42 then
              maxExpand item s fun s => enter depth (matchInit src (depth + 1) caps s ep.tail)
            else if ep.head? = some 43 then
              if matchesHere item s then
                maxExpand item s.tail fun s => enter depth (matchInit src (depth + 1) caps s ep.tail)
              else .ok none
            else if ep.head? = some 45 then
              minExpand item s fun s => enter depth (matchInit src (depth + 1) caps s ep.tail)
            else if matchesHere item s then matchInit src depth caps s.tail ep
            else .ok none
termination_by p => p.length
decreasing_by
  all_goals simp only [List.length_cons, List.length_tail]
  all_goals first
    | omega
    | (have hle := classEnd_le _hep; omega)
    | (have hlen := congrArg List.length _h
       simp only [List.length_cons, List.length_tail] at hlen
       omega)
    | (have hlen := congrArg List.length _h
       have hle := classEnd_le _hep
       simp only [List.length_cons, List.length_tail] at hlen
       omega)

/-- `match(&ms, s, p)`, with no captures. -/
def matchAt (src s p : Bytes) : Search PatError Match := enter 0 (matchInit src 1 [] s p)

end Tmg.Lua
