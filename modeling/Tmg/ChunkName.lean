/-
# `Tmg.ChunkName` — the name under which LuaJIT reports a template's errors

`tmg_expand` loads the chunk under the name `@path`, and `report_error_with_code` looks for
`path:` in the message.  LuaJIT prints the name in `LUA_IDSIZE` bytes:

| `path` | printed |
| :-- | :-- |
| fewer than 60 bytes | `path` |
| 60 bytes or more | `...` and its last 56 bytes |

So an error of a template with a long path is never traced back (`tracedBack_iff`).
-/
import Tmg.Report

namespace Tmg

open Lib

variable {msg inPath : CString}

/-- `chunkname`, a `char[1024]`. -/
def chunkname (inPath : CString) : Bytes := (ascii "@" ++ inPath.bytes).take 1023

/-- `LUA_IDSIZE` -/
def luaIdSize : Nat := 60

/-- `LJ_MAX_LINE` -/
def ljMaxLine : Nat := 0x7fffff00

/-- `lj_debug_shortname`, for a chunk name that begins with `@`. -/
def ljDebugShortname (str : Bytes) : Bytes :=
  let len := str.length - 1
  let src := str.drop 1
  if len ≥ luaIdSize then ascii "..." ++ src.drop (len - (luaIdSize - 4)) else src

/-- Where LuaJIT says, at the head of a message, that it raised an error at line `k` of the
chunk. -/
def luaLocation (inPath : CString) (k : Nat) : Bytes :=
  ljDebugShortname (chunkname inPath) ++ ascii ":" ++ decimal k ++ ascii ":"

/-- Every error raised at a line of the template's chunk is reported at the template line
that the map has for it. -/
def TracedBack (inPath : CString) : Prop :=
  ∀ (k : Nat) (lm : List Nat) (text : Bytes) (msg : CString),
    1 ≤ k → k ≤ lm.length → k ≤ ljMaxLine → msg.bytes = luaLocation inPath k ++ text →
      ∃ i, (locate msg inPath lm).attributed
        = some (i, (k : Int), ((lm.getD (k - 1) 0 : Nat) : Int))

theorem templateLine_inside {lm : List Nat} {k : Nat} (h1 : 1 ≤ k) (hk : k ≤ lm.length) :
    templateLine lm k = (lm.getD (k - 1) 0 : Nat) := by
  rw [templateLine, if_pos ⟨by omega, by simpa using hk⟩, Int.toNat_natCast]

/-- A path of fewer than 60 bytes is printed whole. -/
theorem shortname_short (h : inPath.strlen < 60) :
    ljDebugShortname (chunkname inPath) = inPath.bytes := by
  have hname : chunkname inPath = 64 :: inPath.bytes := by
    rw [chunkname, List.take_of_length_le]
    · rfl
    · simp only [CString.strlen] at h
      simp [ascii]
      omega
  have hlen : ¬ inPath.bytes.length ≥ luaIdSize := by
    simp only [CString.strlen] at h
    simp only [luaIdSize]
    omega
  simp [ljDebugShortname, hname, hlen]

/-- Of a longer one, 59 bytes are printed. -/
theorem length_shortname_long (h : 60 ≤ inPath.strlen) :
    (ljDebugShortname (chunkname inPath)).length = 59 := by
  have hlen : (chunkname inPath).length = min 1023 (inPath.strlen + 1) := by
    rw [chunkname, List.length_take, List.length_append, Nat.add_comm]
    rfl
  have hlong : (chunkname inPath).length - 1 ≥ luaIdSize := by
    rw [hlen, luaIdSize]
    omega
  simp only [ljDebugShortname, if_pos hlong, List.length_append, List.length_drop]
  simp only [luaIdSize, ascii] at hlong ⊢
  simp
  omega

theorem tracedBack_short (h : inPath.strlen < 60) : TracedBack inPath := by
  intro k lm text msg h1 hk hmax hmsg
  have hnum : lineNumber msg inPath = some (inPath.strlen + 1, k) := by
    have hsplit : msg.bytes = inPath.bytes ++ ascii ":" ++ (decimal k ++ (ascii ":" ++ text)) := by
      rw [hmsg, luaLocation, shortname_short h]
      simp only [List.append_assoc]
    rw [lineNumber_of_digits hsplit (decimal_ne_nil k) isDigit_decimal (by simp [ascii, isDigit]),
      digitsValue_decimal]
  have hright : RightlyAttributed msg inPath lm := by
    rw [rightlyAttributed_some lm hnum]
    rw [ljMaxLine] at hmax
    rw [intMax]
    omega
  rw [RightlyAttributed, hnum] at hright
  refine ⟨inPath.strlen + 1, ?_⟩
  rw [hright, Option.map_some, ← templateLine_inside h1 hk]

/-- A message that is no more than the location of a long path: wherever `prefix` may occur
in it, it ends in front of the last colon, or behind it. -/
theorem attributed_long (h : 60 ≤ inPath.strlen) (hmsg : msg.bytes = luaLocation inPath 1)
    (lm : List Nat) : (locate msg inPath lm).attributed = none := by
  have hfront : (ljDebugShortname (chunkname inPath) ++ ascii ":" ++ decimal 1).length = 61 := by
    rw [List.length_append, List.length_append, length_shortname_long h]
    decide
  by_cases hex : ∃ i, FirstAt (reportPrefix inPath) msg.bytes i
  · obtain ⟨i, hfirst⟩ := hex
    rw [attributed_firstAt lm hfirst]
    have hlen := length_reportPrefix inPath
    obtain ⟨j, hj⟩ : ∃ j, i + (reportPrefix inPath).length = 61 + j := by
      refine ⟨i + (reportPrefix inPath).length - 61, ?_⟩
      omega
    have hdrop : msg.bytes.drop (i + (reportPrefix inPath).length) = (ascii ":").drop j := by
      rw [hmsg, luaLocation, hj, ← hfront, List.drop_length_add_append]
    have hcolon : (strtol ((ascii ":").drop j)).2 = (ascii ":").drop j := by
      cases j with
      | zero => decide
      | succ j => simp [ascii, strtol]
    rw [hdrop, if_pos (Or.inl hcolon)]
  · exact attributed_none lm fun i hfirst => hex ⟨i, hfirst⟩

theorem zero_not_mem_luaLocation (inPath : CString) (k : Nat) : 0 ∉ luaLocation inPath k := by
  have hname : 0 ∉ chunkname inPath := fun h0 => by
    have := List.mem_of_mem_take h0
    simp [ascii, inPath.noNul] at this
  have hshort : 0 ∉ ljDebugShortname (chunkname inPath) := by
    intro h0
    simp only [ljDebugShortname] at h0
    split at h0
    · rw [List.mem_append] at h0
      rcases h0 with h0 | h0
      · exact absurd h0 (by decide)
      · exact hname (List.mem_of_mem_drop (List.mem_of_mem_drop h0))
    · exact hname (List.mem_of_mem_drop h0)
  have hdigits : 0 ∉ decimal k := fun h0 => absurd (isDigit_decimal 0 h0) (by decide)
  simp [luaLocation, hshort, hdigits, ascii]

/-- **Errors are traced back to the template exactly when its path has fewer than 60
bytes.** -/
theorem tracedBack_iff (inPath : CString) : TracedBack inPath ↔ inPath.strlen < 60 := by
  refine ⟨fun h => ?_, tracedBack_short⟩
  by_contra hlong
  let msg : CString := ⟨luaLocation inPath 1, zero_not_mem_luaLocation inPath 1⟩
  have hmsg : msg.bytes = luaLocation inPath 1 ++ [] := (List.append_nil _).symm
  obtain ⟨i, hattr⟩ := h 1 [1] [] msg (by decide) (by decide) (by decide) hmsg
  rw [attributed_long (by omega) rfl] at hattr
  simp at hattr

/-- The template's path is sixty times the letter `a`: LuaJIT prints dots and 56 of them. -/
theorem not_traced_sixty :
    let inPath : CString := ⟨List.replicate 60 97, by decide⟩
    let msg : CString := ⟨ascii "..." ++ List.replicate 56 97 ++ ascii ":1: x", by decide⟩
    msg.bytes = luaLocation inPath 1 ++ ascii " x" ∧
      (locate msg inPath [1]).attributed = none ∧ ¬ TracedBack inPath := by
  intro inPath msg
  have hmsg : msg.bytes = luaLocation inPath 1 ++ ascii " x" := by decide
  have hnone : (locate msg inPath [1]).attributed = none := by decide
  refine ⟨hmsg, hnone, fun h => ?_⟩
  obtain ⟨i, hattr⟩ := h 1 [1] (ascii " x") msg (by decide) (by decide) (by decide) hmsg
  rw [hnone] at hattr
  simp at hattr

end Tmg
