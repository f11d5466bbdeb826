/-
# `Tmg.Expand` — `tmg_expand`, from the template to the expanded text

`tmg_expand` builds the chunk (`Tmg.Scanner`), has Lua load it, and runs it as a
coroutine: every piece of text is a yield, and the loop around `lua_resume` appends
the strings that were yielded to `final_output`.

Lua itself is not part of the sources modelled here, so it enters as parameters:

| | |
| :-- | :-- |
| `fmt` | the string form of a number |
| `load` | `luaL_loadbuffer`: the coroutine of a chunk, or the message of a syntax error |
| `Coroutine` | what that coroutine does, one resume after the other |

A Lua string carries its length and may hold any byte.  `str_push` measures its
argument with `strlen`, so the loop appends a string up to its first zero byte:
`expand_eq_printed_iff`.
-/
import Tmg.Scanner

namespace Tmg

variable {ν : Type*}

/-- A Lua value, as far as the loop looks at it; `ν` are the numbers. -/
inductive LuaValue (ν : Type*) where
  | nil
  | bool (b : Bool)
  | num (n : ν)
  | str (s : Bytes)
  | other
deriving Repr

/-- `lua_isstring` and `lua_tolstring`: the bytes of a string, the string form of a
number. -/
def LuaValue.toLString? (fmt : ν → Bytes) : LuaValue ν → Option Bytes
  | .num n => some (fmt n)
  | .str s => some s
  | _ => none

/-- A finite run of a coroutine, one constructor for what each `lua_resume` reports. -/
inductive Coroutine (ν : Type*) where
  | returned
  | raised (msg : Bytes)
  | yielded (vals : List (LuaValue ν)) (rest : Coroutine ν)
deriving Repr

namespace Coroutine

/-- All values yielded, in yield order and in argument order. -/
def values : Coroutine ν → List (LuaValue ν)
  | returned => []
  | raised _ => []
  | yielded vals rest => vals ++ rest.values

/-- The run ends in a return, not in an error. -/
def EndsNormally : Coroutine ν → Prop
  | returned => True
  | raised _ => False
  | yielded _ rest => rest.EndsNormally

end Coroutine

/-! ## `tmg_expand` -/

/-- The body of the loop for one yielded value: a string or a number is appended. -/
def pushValue (fmt : ν → Bytes) (finalOutput : Bytes) (v : LuaValue ν) : Bytes :=
  match v.toLString? fmt with
  | some chunk => strPush finalOutput chunk
  | none => finalOutput

/-- The loop around `lua_resume`. -/
def resumeLoop (fmt : ν → Bytes) : Bytes → Coroutine ν → Except Bytes Bytes
  | finalOutput, .returned => .ok finalOutput
  | _, .raised msg => .error msg
  | finalOutput, .yielded vals rest => resumeLoop fmt (vals.foldl (pushValue fmt) finalOutput) rest

/-- Why `tmg_expand` returns `false`, with what it hands to the error report: Lua's
message, the line map, the chunk. -/
inductive ExpandError where
  | unreadable
  | syntaxError (msg : Bytes) (lm : List Nat) (chunk : Bytes)
  | runtimeError (msg : Bytes) (lm : List Nat) (chunk : Bytes)
deriving DecidableEq, Repr

/-- `tmg_expand`, the input file being `none` when it cannot be opened. -/
def tmgExpand (fmt : ν → Bytes) (load : Bytes → Except Bytes (Coroutine ν)) (sep : CString) :
    Option Bytes → Except ExpandError Bytes
  | none => .error .unreadable
  | some tpl =>
      let st := finish (scan sep tpl)
      match load st.builder with
      | .error msg => .error (.syntaxError msg st.lm st.builder)
      | .ok co =>
          match resumeLoop fmt [] co with
          | .error msg => .error (.runtimeError msg st.lm st.builder)
          | .ok finalOutput => .ok finalOutput

/-- What `tmg.print` yields for its first argument `v`: a string or a number as it is,
any other value as what its `__tostring` returns, or as nil if it has none. -/
def printValue (tostring : LuaValue ν → Option (LuaValue ν)) (v : LuaValue ν) : LuaValue ν :=
  match v with
  | .num _ | .str _ => v
  | _ => (tostring v).getD .nil

/-! ## What it returns -/

/-- The bytes of every string value yielded, nothing dropped. -/
def printed (fmt : ν → Bytes) (co : Coroutine ν) : Bytes :=
  (co.values.filterMap (LuaValue.toLString? fmt)).flatten

/-- What the loop appends: each string up to its first zero byte. -/
def pushed (fmt : ν → Bytes) (vals : List (LuaValue ν)) : Bytes :=
  ((vals.filterMap (LuaValue.toLString? fmt)).map cstr).flatten

theorem pushed_append (fmt : ν → Bytes) (a b : List (LuaValue ν)) :
    pushed fmt (a ++ b) = pushed fmt a ++ pushed fmt b := by
  simp [pushed]

theorem foldl_pushValue (fmt : ν → Bytes) :
    ∀ (vals : List (LuaValue ν)) (out : Bytes),
      vals.foldl (pushValue fmt) out = out ++ pushed fmt vals
  | [], out => by simp [pushed]
  | v :: vals, out => by
      rw [List.foldl_cons, foldl_pushValue fmt vals, ← List.singleton_append, pushed_append,
        ← List.append_assoc]
      congr 1
      cases h : v.toLString? fmt <;> simp [pushValue, pushed, strPush, h]

/-- `tmg.print` of a string or a number appends it, of anything else without a
`__tostring` nothing. -/
theorem pushValue_printValue (fmt : ν → Bytes) {tostring : LuaValue ν → Option (LuaValue ν)}
    {v : LuaValue ν} (h : v.toLString? fmt = none → tostring v = none) (out : Bytes) :
    pushValue fmt out (printValue tostring v) = pushValue fmt out v := by
  cases v with
  | num _ => rfl
  | str _ => rfl
  | nil => simp [printValue, h rfl]
  | bool _ => simp [printValue, h rfl, pushValue, LuaValue.toLString?]
  | other => simp [printValue, h rfl, pushValue, LuaValue.toLString?]

/-- A run that ends normally leaves what was pushed. -/
theorem resumeLoop_eq (fmt : ν → Bytes) :
    ∀ (co : Coroutine ν) (out : Bytes), co.EndsNormally →
      resumeLoop fmt out co = .ok (out ++ pushed fmt co.values)
  | .returned, out, _ => by simp [resumeLoop, pushed, Coroutine.values]
  | .raised _, _, h => absurd h (by simp [Coroutine.EndsNormally])
  | .yielded vals rest, out, h => by
      rw [resumeLoop, resumeLoop_eq fmt rest _ h, foldl_pushValue, Coroutine.values, pushed_append,
        List.append_assoc]

theorem length_flatten_map_cstr_le :
    ∀ ss : List Bytes, (ss.map cstr).flatten.length ≤ ss.flatten.length
  | [] => by simp
  | s :: ss => by
      have hs := length_cstr_le s
      have hss := length_flatten_map_cstr_le ss
      simp only [List.map_cons, List.flatten_cons, List.length_append]
      omega

/-- Strings cut at their first zero byte give the same text exactly when there is
nothing to cut. -/
theorem flatten_map_cstr_iff :
    ∀ ss : List Bytes, (ss.map cstr).flatten = ss.flatten ↔ ∀ s ∈ ss, (0 : Byte) ∉ s
  | [] => by simp
  | s :: ss => by
      rw [List.map_cons, List.flatten_cons, List.flatten_cons, List.forall_mem_cons]
      constructor
      · intro h
        have hlen := congrArg List.length h
        have hs := length_cstr_le s
        have hss := length_flatten_map_cstr_le ss
        simp only [List.length_append] at hlen
        obtain ⟨h1, h2⟩ := List.append_inj h (by omega)
        exact ⟨cstr_eq_self_iff.mp h1, (flatten_map_cstr_iff ss).mp h2⟩
      · rintro ⟨h1, h2⟩
        rw [cstr_eq_self_iff.mpr h1, (flatten_map_cstr_iff ss).mpr h2]

/-- **A run that ends normally is returned in full exactly when no string value it
yields holds a zero byte.** -/
theorem expand_eq_printed_iff (fmt : ν → Bytes) {load : Bytes → Except Bytes (Coroutine ν)}
    {sep : CString} {tpl : Bytes} {co : Coroutine ν} (hload : load (chunk sep tpl) = .ok co)
    (hend : co.EndsNormally) :
    tmgExpand fmt load sep (some tpl) = .ok (printed fmt co) ↔
      ∀ v ∈ co.values, ∀ s, v.toLString? fmt = some s → (0 : Byte) ∉ s := by
  have hbuilder : load (finish (scan sep tpl)).builder = .ok co := hload
  have hrun : tmgExpand fmt load sep (some tpl) = .ok (pushed fmt co.values) := by
    simp only [tmgExpand, hbuilder, resumeLoop_eq fmt co [] hend, List.nil_append]
  rw [hrun, Except.ok.injEq, pushed, printed, flatten_map_cstr_iff]
  constructor
  · intro h v hv s hs
    exact h s (List.mem_filterMap.mpr ⟨v, hv, hs⟩)
  · intro h s hs
    obtain ⟨v, hv, hvs⟩ := List.mem_filterMap.mp hs
    exact h v hv s hvs

/-- The string form of a one-digit number. -/
def digit (n : Fin 10) : Bytes := [48 + n.val.toUInt8]

/-- The run of `a%tmg.print(7)%b`. -/
def sevenRun : Coroutine (Fin 10) :=
  .yielded [.str (ascii "a")] (.yielded [.num 7] (.yielded [.str (ascii "b")] .returned))

/-- It prints `a7b`. -/
theorem expand_eq_printed_seven :
    tmgExpand digit (fun _ => .ok sevenRun) (CString.single 37 (by decide))
      (some (ascii "a%tmg.print(7)%b")) = .ok (printed digit sevenRun) := by
  have hend : sevenRun.EndsNormally := trivial
  refine (expand_eq_printed_iff digit rfl hend).mpr ?_
  have hb : ∀ s ∈ [ascii "a", digit 7, ascii "b"], (0 : Byte) ∉ s := by decide
  intro v hv s hs
  refine hb s ?_
  simp only [sevenRun, Coroutine.values, List.cons_append, List.nil_append, List.mem_cons,
    List.not_mem_nil, or_false] at hv
  rcases hv with rfl | rfl | rfl <;> simp [LuaValue.toLString?] at hs <;> simp [hs]

/-- `%tmg.print("a\0b")%` yields three bytes and prints one. -/
theorem expand_truncates :
    tmgExpand digit (fun _ => .ok (.yielded [.str [97, 0, 98]] .returned))
        (CString.single 37 (by decide)) (some (ascii "%tmg.print(\"a\\0b\")%"))
      = .ok [97] ∧
      printed digit (.yielded [.str [97, 0, 98]] .returned) = [97, 0, 98] ∧
      ([97] : Bytes) ≠ [97, 0, 98] := by
  refine ⟨rfl, by decide, by decide⟩

end Tmg
