/-
# `Tmg.Lua.StrLib` — `string.find`, `match`, `gmatch` and `gsub`

What the string library makes of the matcher.  All four try the pattern at one place of the
subject after the other:

| | goes on |
| :-- | :-- |
| `find`, `match` | at the next byte, to the end of the subject, not at all behind `^` |
| `gmatch` | behind the match, one byte further behind an empty one |
| `gsub` | behind the match, and behind a byte that is kept where there is none or an empty one |

A pattern without a special character is not given to the matcher by `find`: `lj_str_find`
looks for it with `memchr` and `memcmp`.

The two results about any pattern are `gsub_pieces`, that a substitution takes the subject
apart into bytes that are kept and stretches that match, and `find_plain_eq`, that the short
way of `find` finds what the matcher would.
-/
import Tmg.Lua.Matches
import Tmg.Lib.Search
import Tmg.Lib.Outcome

namespace Tmg.Lua

open Lib

/-! ## Captures as values -/

/-- What a capture is pushed as. -/
inductive CapValue where
  | str (s : Bytes)
  | pos (n : Nat)
deriving DecidableEq, Repr

/-- The string form of a value. -/
def CapValue.text : CapValue → Bytes
  | str s => s
  | pos n => decimal n

/-- `push_onecapture`, of a match from `s` to `e` -/
def pushOnecapture (src : Bytes) (caps : List Capture) (i : Nat) (s e : Bytes) :
    Except PatError CapValue :=
  match caps[i]? with
  | none => if i = 0 then .ok (.str (upTo s e)) else .error .captureIndex
  | some cap =>
      match cap.len with
      | .unfinished => .error .unfinishedCapture
      | .position => .ok (.pos (src.length - cap.init.length + 1))
      | .closed n => .ok (.str (cap.init.take n))

/-- `push_captures`; `whole` where `s` is no null pointer. -/
def pushCaptures (src : Bytes) (caps : List Capture) (whole : Bool) (s e : Bytes) :
    Except PatError (List CapValue) :=
  let nlevels := if caps.length = 0 ∧ whole then 1 else caps.length
  (List.range nlevels).mapM fun i => pushOnecapture src caps i s e

/-! ## `find` and `match` -/

/-- `memchr(s, c, n)`, by its distance from `s`. -/
def memchr (s : Bytes) (c : Byte) (n : Nat) : Option Nat := (s.take n).idxOf? c

/-- The loop of `lj_str_find` for `c :: p`, with `slen` places to look at. -/
def strFindLoop (c : Byte) (p : Bytes) (slen : Nat) (s : Bytes) : Option Bytes :=
  if slen = 0 then none
  else
    match memchr s c slen with
    | none => none
    | some i =>
        if (s.drop (i + 1)).take p.length = p then some (s.drop i)
        else strFindLoop c p (slen - (i + 1)) (s.drop (i + 1))
termination_by slen

/-- `lj_str_find` -/
def strFind (s p : Bytes) : Option Bytes :=
  if p.length ≤ s.length then
    match p with
    | [] => some s
    | c :: p => strFindLoop c p (s.length - p.length) s
  else none

/-- `lj_str_haspattern` -/
def hasPattern (p : Bytes) : Bool :=
  p.any fun c => isa c charPunct && c ∈ ascii "^$*+?.([%-"

/-- The loop of `str_find_aux`: where the pattern matches, and the match. -/
def searchLoop (src p : Bytes) (anchor : Bool) : Bytes → Search PatError (Bytes × Match)
  | [] =>
      match matchAt src [] p with
      | .error e => .error e
      | .ok m => .ok (m.map fun m => ([], m))
  | c :: s =>
      match matchAt src (c :: s) p with
      | .error e => .error e
      | .ok (some m) => .ok (some (c :: s, m))
      | .ok none => if anchor then .ok none else searchLoop src p anchor s

/-- `start` of `str_find_aux`, as an offset. -/
def startOffset (s : Bytes) (start : Int) : Nat :=
  let start := if start < 0 then start + s.length else start - 1
  min (if start < 0 then 0 else start).toNat s.length

/-- What `find` and `match` return. -/
inductive FindResult where
  | nil
  | found (first last : Nat) (caps : List CapValue)
  | matched (caps : List CapValue)
deriving DecidableEq, Repr

/-- The anchor of a pattern, and what is behind it. -/
def anchored (p : Bytes) : Bool × Bytes :=
  if p.head? = some 94 then (true, p.tail) else (false, p)

/-- The branch of `str_find_aux` for a fixed string. -/
def findFixed (s p : Bytes) (st : Nat) : FindResult :=
  match strFind (s.drop st) p with
  | none => .nil
  | some q => .found (s.length - q.length + 1) (s.length - q.length + p.length) []

/-- The branch of `str_find_aux` for a pattern. -/
def findPattern (find : Bool) (s p : Bytes) (st : Nat) : Except PatError FindResult :=
  let (anchor, p) := anchored (cstr p)
  match searchLoop s p anchor (s.drop st) with
  | .error e => .error e
  | .ok none => .ok .nil
  | .ok (some (sstr, q, caps)) =>
      if find then
        (pushCaptures s caps false sstr q).map
          (.found (s.length - sstr.length + 1) (s.length - q.length))
      else (pushCaptures s caps true sstr q).map .matched

/-- `str_find_aux` -/
def strFindAux (find : Bool) (s p : Bytes) (start : Int) (plain : Bool) :
    Except PatError FindResult :=
  let st := startOffset s start
  if find ∧ (plain ∨ hasPattern p = false) then .ok (findFixed s p st) else findPattern find s p st

/-! ## `gsub` -/

/-- The replacement: a string, a table by what it has for a key, or a function by what each of its
calls answers, the first being call 0; what is nil or false is `none`. -/
inductive Repl where
  | str (news : Bytes)
  | tab (get : CapValue → Option Bytes)
  | fn (call : Nat → List CapValue → Except PatError (Option Bytes))

/-- `add_s` -/
def addS (src : Bytes) (caps : List Capture) (s e : Bytes) : Bytes → Except PatError Bytes
  | [] => .ok []
  | [c] => .ok (if c = esc then [0] else [c])
  | c :: d :: news =>
      if c ≠ esc then (addS src caps s e (d :: news)).map (c :: ·)
      else if !isa d charDigit then (addS src caps s e news).map (d :: ·)
      else if d = 48 then (addS src caps s e news).map (upTo s e ++ ·)
      else
        match pushOnecapture src caps (d - 49).toNat s e with
        | .error err => .error err
        | .ok v => (addS src caps s e news).map (v.text ++ ·)

/-- `add_value`, behind `n` others. -/
def addValue (src : Bytes) (repl : Repl) (n : Nat) (caps : List Capture) (s e : Bytes) :
    Except PatError Bytes :=
  match repl with
  | .str news => addS src caps s e news
  | .tab get => (pushOnecapture src caps 0 s e).map fun v => (get v).getD (upTo s e)
  | .fn call =>
      match pushCaptures src caps true s e with
      | .error err => .error err
      | .ok vals => (call n vals).map fun v => v.getD (upTo s e)

/-- The loop of `gsub`, at `s`: what is added to the buffer, and how many times. -/
def gsubLoop (src p : Bytes) (repl : Repl) (anchor : Bool) (maxS : Int) (n : Nat) (s : Bytes) :
    Except PatError (Bytes × Nat) :=
  if (n : Int) < maxS then
    match matchAt src s p with
    | .error err => .error err
    | .ok (some (e, caps)) =>
        match addValue src repl n caps s e with
        | .error err => .error err
        | .ok new =>
            if e.length < s.length then
              if anchor then .ok (new ++ e, n + 1)
              else (gsubLoop src p repl anchor maxS (n + 1) e).map fun r => (new ++ r.1, r.2)
            else
              match s with
              | [] => .ok (new, n + 1)
              | c :: s =>
                  if anchor then .ok (new ++ c :: s, n + 1)
                  else
                    (gsubLoop src p repl anchor maxS (n + 1) s).map fun r => (new ++ c :: r.1, r.2)
    | .ok none =>
        match s with
        | [] => .ok ([], n)
        | c :: s =>
            if anchor then .ok (c :: s, n)
            else (gsubLoop src p repl anchor maxS n s).map fun r => (c :: r.1, r.2)
  else .ok (s, n)
termination_by s.length

/-- `string.gsub` -/
def gsub (src p : Bytes) (repl : Repl) (maxS : Option Int) : Except PatError (Bytes × Nat) :=
  let (anchor, p) := anchored (cstr p)
  gsubLoop src p repl anchor (maxS.getD (src.length + 1)) 0 src

/-! ## `gmatch` -/

theorem searchLoop_suffix {src p : Bytes} {anchor : Bool} {s t : Bytes} {m : Match}
    (h : searchLoop src p anchor s = .ok (some (t, m))) : t <:+ s ∧ m.1 <:+ t := by
  induction s with
  | nil =>
      rw [searchLoop] at h
      split at h
      · exact absurd h (by simp)
      · next r hr =>
          cases r with
          | none => simp at h
          | some m' =>
              obtain ⟨rfl, rfl⟩ := Prod.mk.inj (Option.some.inj (Except.ok.inj h))
              exact ⟨List.suffix_rfl, matchAt_suffix hr⟩
  | cons c s ih =>
      rw [searchLoop] at h
      split at h
      · exact absurd h (by simp)
      · next hm =>
          obtain ⟨rfl, rfl⟩ := Prod.mk.inj (Option.some.inj (Except.ok.inj h))
          exact ⟨List.suffix_rfl, matchAt_suffix hm⟩
      · split_ifs at h
        · exact absurd h (by simp)
        · exact ⟨(ih h).1.trans (List.suffix_cons c s), (ih h).2⟩

/-- What a loop over `gmatch` is given, from `s` on: each turn is a call of `gmatch_aux`. -/
def gmatchLoop (src p s : Bytes) : Except PatError (List (List CapValue)) :=
  match _h : searchLoop src p false s with
  | .error err => .error err
  | .ok none => .ok []
  | .ok (some (t, e, caps)) =>
      match pushCaptures src caps true t e with
      | .error err => .error err
      | .ok vals =>
          if _hlt : e.length < t.length then (gmatchLoop src p e).map (vals :: ·)
          else
            match _he : e with
            | [] => .ok [vals]
            | _ :: e' => (gmatchLoop src p e').map (vals :: ·)
termination_by s.length
decreasing_by
  all_goals have hsuf := searchLoop_suffix _h
  all_goals have hs := hsuf.1.length_le
  all_goals have he := hsuf.2.length_le
  · exact _hlt.trans_le hs
  · simp only [List.length_cons] at he
    omega

/-- `string.gmatch`, of a loop that runs to its end. -/
def gmatch (src p : Bytes) : Except PatError (List (List CapValue)) := gmatchLoop src (cstr p) src

/-! ## What a substitution does to the subject -/

/-- A piece of the subject: a byte that is kept, or a stretch and what it is replaced by. -/
inductive Piece where
  | kept (c : Byte)
  | replaced (text new : Bytes)
deriving DecidableEq, Repr

namespace Piece

/-- What the piece is of the subject. -/
def text : Piece → Bytes
  | kept c => [c]
  | replaced t _ => t

/-- What the piece is of the result. -/
def out : Piece → Bytes
  | kept c => [c]
  | replaced _ new => new

def isReplaced : Piece → Bool
  | kept _ => false
  | replaced _ _ => true

end Piece

/-- The subject that the pieces make up. -/
def textOf (ps : List Piece) : Bytes := ps.flatMap Piece.text

/-- Each stretch that is replaced is what the pattern matches where it stands, and is replaced
by what the replacement is for this match, behind `n` others. -/
def EachMatches (src p : Bytes) (repl : Repl) : Nat → List Piece → Prop
  | _, [] => True
  | n, .kept _ :: ps => EachMatches src p repl n ps
  | n, .replaced t new :: ps =>
      (∃ caps, matchAt src (t ++ textOf ps) p = .ok (some (textOf ps, caps)) ∧
        addValue src repl n caps (t ++ textOf ps) (textOf ps) = .ok new) ∧
      EachMatches src p repl (n + 1) ps

/-- A byte is kept where the pattern does not match, or behind a match of no bytes that was
replaced there. -/
def NoneMissed (src p : Bytes) : Bool → List Piece → Prop
  | _, [] => True
  | behind, .kept c :: ps =>
      (behind = true ∨ matchAt src (c :: textOf ps) p = .ok none) ∧ NoneMissed src p false ps
  | _, .replaced t _ :: ps => NoneMissed src p (t = []) ps

/-- What a substitution has made of `s`, with `n` replacements behind `before` others. -/
structure Substitution (src p : Bytes) (repl : Repl) (before : Nat) (s out : Bytes) (n : Nat)
    (ps : List Piece) : Prop where
  text : textOf ps = s
  out : ps.flatMap Piece.out = out
  count : ps.countP Piece.isReplaced = n
  justified : EachMatches src p repl before ps

theorem eachMatches_kept (src p : Bytes) (repl : Repl) (n : Nat) (s : Bytes) :
    EachMatches src p repl n (s.map Piece.kept) := by
  induction s with
  | nil => trivial
  | cons c s ih => exact ih

theorem textOf_kept (s : Bytes) : textOf (s.map Piece.kept) = s := by
  simp [textOf, List.flatMap_map, Piece.text]

/-- Bytes that are copied to the end. -/
theorem Substitution.kept (src p : Bytes) (repl : Repl) (before : Nat) (s : Bytes) :
    Substitution src p repl before s s 0 (s.map Piece.kept) where
  text := textOf_kept s
  out := by simp [List.flatMap_map, Piece.out]
  count := by simp [List.countP_map, Function.comp_def, Piece.isReplaced]
  justified := eachMatches_kept src p repl before s

theorem Substitution.keep {src p : Bytes} {repl : Repl} {before : Nat} {s out : Bytes} {n : Nat}
    {ps : List Piece} (h : Substitution src p repl before s out n ps) (c : Byte) :
    Substitution src p repl before (c :: s) (c :: out) n (.kept c :: ps) where
  text := congrArg (c :: ·) h.text
  out := congrArg (c :: ·) h.out
  count := by rw [List.countP_cons_of_neg (by simp [Piece.isReplaced]), h.count]
  justified := h.justified

theorem upTo_append (t e : Bytes) : upTo (t ++ e) e = t := by simp [upTo]

theorem Substitution.replace {src p : Bytes} {repl : Repl} {before : Nat} {s e out new : Bytes}
    {n : Nat} {ps : List Piece} {caps : List Capture}
    (h : Substitution src p repl (before + 1) e out n ps)
    (hmatch : matchAt src s p = .ok (some (e, caps)))
    (hnew : addValue src repl before caps s e = .ok new) :
    Substitution src p repl before s (new ++ out) (n + 1) (.replaced (upTo s e) new :: ps) := by
  obtain ⟨t, rfl⟩ := matchAt_suffix hmatch
  refine ⟨?_, ?_, ?_, ?_, h.justified⟩
  · show upTo (t ++ e) e ++ textOf ps = t ++ e
    rw [upTo_append, h.text]
  · show new ++ ps.flatMap Piece.out = new ++ out
    rw [h.out]
  · rw [List.countP_cons_of_pos rfl, h.count]
  · rw [upTo_append, h.text]
    exact ⟨caps, hmatch, hnew⟩

/-- The loop from `s` on.  It misses no match if it does not stop at once and has a turn left
for every byte. -/
theorem gsubLoop_pieces {src p : Bytes} {repl : Repl} {anchor : Bool} {maxS : Int} :
    ∀ {s out : Bytes} {n n' : Nat}, gsubLoop src p repl anchor maxS n s = .ok (out, n') →
      ∃ ps k, n' = n + k ∧ Substitution src p repl n s out k ps ∧
        (anchor = false → (n + s.length : Int) < maxS → NoneMissed src p false ps) := by
  intro s
  induction hlen : s.length using Nat.strong_induction_on generalizing s with
  | h len ih =>
      subst hlen
      intro out n n' h
      unfold gsubLoop at h
      by_cases hmax : (n : Int) < maxS
      swap
      · rw [if_neg hmax] at h
        obtain ⟨rfl, rfl⟩ := Prod.mk.inj (Except.ok.inj h)
        exact ⟨_, 0, rfl, .kept src p repl n s, fun _ hturns => absurd hturns (by omega)⟩
      rw [if_pos hmax] at h
      have hstop : ∀ {ps}, anchor = true →
          (anchor = false → (n + s.length : Int) < maxS → NoneMissed src p false ps) :=
        fun hanchor hfree => absurd hanchor (by simp [hfree])
      split at h
      · exact absurd h (by simp)
      · next e caps hmatch =>
          split at h
          · exact absurd h (by simp)
          · next new hnew =>
              by_cases hlt : e.length < s.length
              · rw [if_pos hlt] at h
                by_cases hanchor : anchor = true
                · rw [if_pos hanchor] at h
                  obtain ⟨rfl, rfl⟩ := Prod.mk.inj (Except.ok.inj h)
                  exact ⟨_, 1, rfl, (Substitution.kept src p repl _ e).replace hmatch hnew, hstop hanchor⟩
                · -- a match of some bytes: the loop goes on behind it
                  rw [if_neg hanchor] at h
                  obtain ⟨r, hr, hout⟩ := map_eq_ok h
                  obtain ⟨rfl, rfl⟩ := Prod.mk.inj hout
                  obtain ⟨ps, k, hk, hsub, hfree⟩ := ih _ hlt rfl hr
                  refine ⟨_, k + 1, by omega, hsub.replace hmatch hnew, fun hanchor hturns => ?_⟩
                  have hne : upTo s e ≠ [] := by
                    obtain ⟨t, rfl⟩ := matchAt_suffix hmatch
                    rw [upTo_append]
                    rintro rfl
                    exact absurd hlt (by simp)
                  show NoneMissed src p (upTo s e = []) ps
                  rw [decide_eq_false hne]
                  exact hfree hanchor (by push_cast; omega)
              · have hsuf : e <:+ s := matchAt_suffix hmatch
                have he : e = s := hsuf.eq_of_length (Nat.le_antisymm hsuf.length_le (by omega))
                subst he
                rw [if_neg hlt] at h
                split at h
                · obtain ⟨rfl, rfl⟩ := Prod.mk.inj (Except.ok.inj h)
                  refine ⟨[.replaced (upTo [] []) new], 1, rfl, ?_, fun _ _ => trivial⟩
                  simpa using (Substitution.kept src p repl _ []).replace hmatch hnew
                · next c s =>
                    by_cases hanchor : anchor = true
                    · rw [if_pos hanchor] at h
                      obtain ⟨rfl, rfl⟩ := Prod.mk.inj (Except.ok.inj h)
                      exact ⟨_, 1, rfl, (Substitution.kept src p repl _ (c :: s)).replace hmatch hnew,
                        hstop hanchor⟩
                    · -- a match of no bytes: the next byte is kept
                      rw [if_neg hanchor] at h
                      obtain ⟨r, hr, hout⟩ := map_eq_ok h
                      obtain ⟨rfl, rfl⟩ := Prod.mk.inj hout
                      obtain ⟨ps, k, hk, hsub, hfree⟩ := ih _ (by simp) rfl hr
                      refine ⟨_, k + 1, by omega, (hsub.keep c).replace hmatch hnew, ?_⟩
                      intro hanchor hturns
                      show NoneMissed src p (upTo (c :: s) (c :: s) = []) (.kept c :: ps)
                      simp only [List.length_cons] at hturns
                      exact ⟨.inl (by simp [upTo]), hfree hanchor (by push_cast at hturns ⊢; omega)⟩
      · next hmatch =>
          split at h
          · obtain ⟨rfl, rfl⟩ := Prod.mk.inj (Except.ok.inj h)
            exact ⟨[], 0, rfl, .kept src p repl n [], fun _ _ => trivial⟩
          · next c s =>
              by_cases hanchor : anchor = true
              · rw [if_pos hanchor] at h
                obtain ⟨rfl, rfl⟩ := Prod.mk.inj (Except.ok.inj h)
                exact ⟨_, 0, rfl, .kept src p repl n (c :: s), hstop hanchor⟩
              · -- no match: the byte is kept
                rw [if_neg hanchor] at h
                obtain ⟨r, hr, hout⟩ := map_eq_ok h
                obtain ⟨rfl, rfl⟩ := Prod.mk.inj hout
                obtain ⟨ps, k, hk, hsub, hfree⟩ := ih _ (by simp) rfl hr
                refine ⟨_, k, hk, hsub.keep c, fun hanchor hturns => ?_⟩
                have hps : textOf ps = s := hsub.text
                simp only [List.length_cons] at hturns
                exact ⟨.inr (by rw [hps]; exact hmatch), hfree hanchor (by push_cast at hturns ⊢; omega)⟩

/-- A function that answers with a number at its first call and with nil at its second. -/
example :
    gsub (ascii "a1b") (ascii "%a") (.fn fun n _ => .ok (if n = 0 then some (ascii "7") else none)) none =
      .ok (ascii "71b", 2) := by decide +kernel

/-- Where each stretch is replaced by itself the subject comes out again. -/
theorem textOf_eq_out {src p : Bytes} {repl : Repl}
    (hrepl : ∀ n caps s e new, addValue src repl n caps s e = .ok new → new = upTo s e) :
    ∀ {n : Nat} {ps : List Piece}, EachMatches src p repl n ps → ps.flatMap Piece.out = textOf ps
  | _, [], _ => rfl
  | _, .kept c :: ps, h => congrArg (c :: ·) (textOf_eq_out hrepl h)
  | n, .replaced t new :: ps, h => by
      obtain ⟨⟨caps, -, hnew⟩, hps⟩ := h
      have hself := hrepl n caps _ _ _ hnew
      rw [upTo_append] at hself
      show new ++ ps.flatMap Piece.out = t ++ textOf ps
      rw [hself, textOf_eq_out hrepl hps]

/-- **Every match replaced by itself leaves the subject as it is**, whatever the pattern is. -/
theorem gsub_self {src p : Bytes} {maxS : Option Int} {out : Bytes} {n : Nat}
    (h : gsub src p (.str (ascii "%0")) maxS = .ok (out, n)) : out = src := by
  have hloop : gsubLoop src (anchored (cstr p)).2 (.str (ascii "%0")) (anchored (cstr p)).1
      (maxS.getD (src.length + 1)) 0 src = .ok (out, n) := h
  obtain ⟨ps, k, -, hsub, -⟩ := gsubLoop_pieces hloop
  rw [← hsub.out, ← hsub.text]
  refine textOf_eq_out (fun n caps s e new hnew => ?_) hsub.justified
  have hdigit : isa 48 charDigit = true := by decide
  have hzero : ascii "%0" = [esc, 48] := rfl
  rw [addValue, hzero, addS] at hnew
  simpa [hdigit, addS, Except.map, eq_comm] using hnew

theorem gsub_self_letters : ∃ out n,
    gsub (ascii "tmg.lua") (ascii "%a+") (.str (ascii "%0")) none = .ok (out, n) ∧
      out = ascii "tmg.lua" :=
  have h : gsub (ascii "tmg.lua") (ascii "%a+") (.str (ascii "%0")) none =
    .ok (ascii "tmg.lua", 2) := by decide +kernel
  ⟨_, 2, h, gsub_self h⟩

/-! ## Where `find` finds a pattern -/

/-- The search stops at the first place with a way to match, and takes the first way there. -/
theorem searchLoop_first {p : Bytes} {items : List Item} (h : WellFormed p items) (src s : Bytes) :
    searchLoop src p false s =
      .ok ((firstAt (fun t => allMatches src items [] t ≠ []) s).bind fun t =>
        (allMatches src items [] t).head?.map fun m => (t, m)) := by
  induction s with
  | nil =>
      rw [searchLoop, matchAt_finds h]
      cases hways : allMatches src items [] [] <;> simp [firstAt, hways]
  | cons c s ih =>
      rw [searchLoop, matchAt_finds h]
      cases hways : allMatches src items [] (c :: s) with
      | nil => simpa [firstAt, hways] using ih
      | cons m ms => simp [firstAt, hways]

/-- `%d*%.` looks for a stop and the digits before it. -/
theorem searchLoop_first_stop :
    searchLoop (ascii "a12.5") (ascii "%d*%.") false (ascii "a12.5") =
      .ok ((firstAt (fun t => allMatches (ascii "a12.5")
          [.single (ascii "%d") .star, .single (ascii "%.") .one] [] t ≠ []) (ascii "a12.5")).bind
        fun t => (allMatches (ascii "a12.5")
          [.single (ascii "%d") .star, .single (ascii "%.") .one] [] t).head?.map fun m => (t, m)) :=
  searchLoop_first ⟨.cons rfl (.cons rfl .nil), by decide, by decide⟩ _ _

/-! ## The short way of `find` -/

theorem prefix_drop_iff {c : Byte} {p s : Bytes} {i : Nat} (hi : i < s.length) :
    c :: p <+: s.drop i ↔ s[i] = c ∧ (s.drop (i + 1)).take p.length = p := by
  rw [List.drop_eq_getElem_cons hi, List.cons_prefix_cons, eq_comm (a := c), List.prefix_iff_eq_take,
    eq_comm (a := p)]

/-- The loop looks for the first byte with `memchr` and compares the others. -/
theorem strFindLoop_eq (c : Byte) (p : Bytes) {slen : Nat} {s : Bytes}
    (hslen : slen = s.length - p.length) :
    strFindLoop c p slen s = firstAt (fun t => decide (c :: p <+: t)) s := by
  induction slen using Nat.strong_induction_on generalizing s with
  | h slen ih =>
      -- no place from `slen` on leaves enough bytes
      have hlate : ∀ i, slen ≤ i → ¬ c :: p <+: s.drop i := by
        intro i hi hpre
        have hlen := hpre.length_le
        rw [List.length_cons, List.length_drop] at hlen
        omega
      unfold strFindLoop
      by_cases hzero : slen = 0
      · rw [if_pos hzero, eq_comm, firstAt_eq_none]
        exact fun i _ => decide_eq_false (hlate i (by omega))
      rw [if_neg hzero]
      cases hchr : memchr s c slen with
      | none =>
          rw [memchr, List.idxOf?_eq_none_iff] at hchr
          rw [eq_comm, firstAt_eq_none]
          intro i hi
          refine decide_eq_false ?_
          by_cases hle : slen ≤ i
          · exact hlate i hle
          · have hlt : i < s.length := by omega
            rw [prefix_drop_iff hlt]
            exact fun h => hchr (List.mem_take_iff_getElem.mpr ⟨i, by omega, h.1⟩)
      | some i =>
          rw [memchr, List.idxOf?_eq_some_iff] at hchr
          obtain ⟨hi, hc, hbefore⟩ := hchr
          rw [List.length_take] at hi
          have hlt : i < s.length := by omega
          rw [List.getElem_take] at hc
          have hskip : ∀ j < i, decide (c :: p <+: s.drop j) = false := by
            intro j hj
            have hne := hbefore j hj
            rw [List.getElem_take] at hne
            refine decide_eq_false ?_
            rw [prefix_drop_iff (by omega)]
            exact fun h => hne h.1
          rw [firstAt_drop hlt.le hskip]
          by_cases htail : (s.drop (i + 1)).take p.length = p
          · exact (if_pos htail).trans
              (firstAt_of_pos (decide_eq_true ((prefix_drop_iff hlt).mpr ⟨hc, htail⟩))).symm
          · have hhere : decide (c :: p <+: s.drop i) = false :=
              decide_eq_false fun h => htail ((prefix_drop_iff hlt).mp h).2
            have hone : ∀ j < 1, decide (c :: p <+: (s.drop i).drop j) = false := by
              intro j hj
              obtain rfl : j = 0 := by omega
              exact hhere
            rw [firstAt_drop (by rw [List.length_drop]; omega) hone, List.drop_drop]
            refine (if_neg htail).trans (ih _ (by omega) ?_)
            rw [List.length_drop]
            omega

/-- `lj_str_find` finds the first occurrence. -/
theorem strFind_eq (s p : Bytes) : strFind s p = firstAt (fun t => decide (p <+: t)) s := by
  unfold strFind
  by_cases hlen : p.length ≤ s.length
  · rw [if_pos hlen]
    cases p with
    | nil => exact (firstAt_of_pos (by simp)).symm
    | cons c p => exact strFindLoop_eq c p rfl
  · rw [if_neg hlen, eq_comm, firstAt_eq_none]
    intro i _
    refine decide_eq_false fun hpre => hlen ?_
    have hle := hpre.length_le
    rw [List.length_drop] at hle
    omega

/-- The bytes that the matcher takes as themselves. -/
def isPlain (c : Byte) : Bool := c ∉ ascii "^$*+?.([%-)"

theorem isPlain_of_hasPattern {p : Bytes} (h : hasPattern p = false) (hclose : 41 ∉ p) :
    ∀ c ∈ p, isPlain c = true := by
  have hspecial : ∀ c ∈ ascii "^$*+?.([%-)", c = 41 ∨
      (isa c charPunct && c ∈ ascii "^$*+?.([%-") = true := by decide
  intro c hc
  rw [isPlain, decide_eq_true_iff]
  intro hmem
  rcases hspecial c hmem with rfl | hpunct
  · exact hclose hc
  · rw [hasPattern, List.any_eq_false] at h
    exact h c hc hpunct

theorem nextItem_plain {c : Byte} {p : Bytes} (h : ∀ d ∈ c :: p, isPlain d = true) :
    nextItem c p = .ok (.single [c] .one, p) := by
  have hne : ∀ {x : Byte}, isPlain x = false → ∀ d ∈ c :: p, d ≠ x := by
    rintro x hx d hd rfl
    exact absurd (h d hd) (by simp [hx])
  have hc : ∀ {x : Byte}, isPlain x = false → c ≠ x := fun hx => hne hx c List.mem_cons_self
  have hp : ∀ {x : Byte}, isPlain x = false → p.head? ≠ some x := fun hx hhead =>
    hne hx _ (List.mem_cons_of_mem _ (List.mem_of_mem_head? hhead)) rfl
  have hesc : c ≠ esc := hc (by decide)
  have hitem : upTo (c :: p) p = [c] := by simp [upTo]
  simp only [nextItem, classEnd, repeated, Except.map, hitem, hesc, hc (x := 40) (by decide),
    hc (x := 41) (by decide), hc (x := 36) (by decide), hc (x := lbr) (by decide),
    hp (x := 63) (by decide), hp (x := 42) (by decide), hp (x := 43) (by decide),
    hp (x := 45) (by decide), false_and, if_false]

/-- The matcher compares such bytes one by one. -/
theorem matchInit_plain (src : Bytes) (depth : Nat) (caps : List Capture) :
    ∀ {p : Bytes}, (∀ c ∈ p, isPlain c = true) → ∀ s : Bytes,
      matchInit src depth caps s p = .ok (if p <+: s then some (s.drop p.length, caps) else none)
  | [], _, s => by simp [matchInit]
  | c :: p, hp, s => by
      have ih := matchInit_plain src depth caps (fun d hd => hp d (List.mem_cons_of_mem _ hd))
      rw [matchInit_cons, nextItem_plain hp]
      dsimp only [Item.run]
      cases s with
      | nil => simp [matchesHere]
      | cons d s =>
          have hsingle : singleMatch d [c] = decide (c = d) := by
            have hc := hp c List.mem_cons_self
            have hdot : c ≠ 46 := by rintro rfl; exact absurd hc (by decide)
            have hesc : c ≠ esc := by rintro rfl; exact absurd hc (by decide)
            have hlbr : c ≠ lbr := by rintro rfl; exact absurd hc (by decide)
            rw [singleMatch, if_neg hdot, if_neg hesc, if_neg hlbr]
          rw [matchesHere, hsingle, List.tail_cons, ih]
          by_cases hd : c = d <;> simp [List.cons_prefix_cons, hd]

theorem searchLoop_plain {p : Bytes} (hp : ∀ c ∈ p, isPlain c = true) (src s : Bytes) :
    searchLoop src p false s =
      .ok ((firstAt (fun t => decide (p <+: t)) s).map fun t => (t, t.drop p.length, [])) := by
  have hmatch : ∀ t, matchAt src t p = .ok (if p <+: t then some (t.drop p.length, []) else none) :=
    fun t => matchInit_plain src 1 [] hp t
  induction s with
  | nil =>
      rw [searchLoop, hmatch, firstAt]
      by_cases hpre : p <+: [] <;> simp [hpre]
  | cons c s ih =>
      rw [searchLoop, hmatch, firstAt]
      by_cases hpre : p <+: c :: s
      · simp [hpre]
      · simpa [hpre] using ih

/-- **The short way of `find` finds what the matcher would.**  A `)` is no special character to
`lj_str_haspattern`, and the matcher raises an error at it; a pattern with a zero byte ends
there. -/
theorem find_plain_eq {p : Bytes} (hpattern : hasPattern p = false) (hclose : 41 ∉ p)
    (hzero : 0 ∉ p) (s : Bytes) (st : Nat) :
    findPattern true s p st = .ok (findFixed s p st) := by
  have hp := isPlain_of_hasPattern hpattern hclose
  have hanchor : anchored (cstr p) = (false, p) := by
    rw [cstr_eq_self_iff.mpr hzero, anchored, if_neg]
    intro hhead
    exact absurd (hp _ (List.mem_of_mem_head? hhead)) (by decide)
  rw [findPattern, hanchor]
  dsimp only
  rw [searchLoop_plain hp, findFixed, strFind_eq]
  cases hfirst : firstAt (fun t => decide (p <+: t)) (s.drop st) with
  | none => rfl
  | some t =>
      obtain ⟨hsuf, hpre⟩ := firstAt_eq_some hfirst
      have hs := (hsuf.trans (List.drop_suffix st s)).length_le
      have ht := (of_decide_eq_true hpre).length_le
      have hend : s.length - (t.drop p.length).length = s.length - t.length + p.length := by
        rw [List.length_drop]
        omega
      show (Except.ok [] : Except PatError (List CapValue)).map _ = _
      rw [hend]
      rfl

theorem find_plain_eq_blank :
    findPattern true (ascii "cc main.c") (ascii " ") 0 = .ok (findFixed (ascii "cc main.c") (ascii " ") 0) :=
  find_plain_eq (by decide) (by decide) (by decide) _ _

end Tmg.Lua
