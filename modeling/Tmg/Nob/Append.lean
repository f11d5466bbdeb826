/-
# `Tmg.Nob.Append` — `Cmd:append`

`Cmd:append(...)` is to add its arguments to the command, the elements of a list in the
place of the list, at any depth.  Each level is an `ipairs` loop, over `{...}` or over the
list, and `ipairs` ends at the first nil:

    cmd:append("gcc", nil, "a.c")       gcc
    cmd:append("gcc", { "-O2", nil, "-g" }, "a.c")       gcc  -O2  a.c

What stands behind a nil is lost, and nothing else is: `append_eq_flatten_iff`.

`fmt` is `tostring` on numbers.
-/
import Tmg.Nob.Command
import Tmg.Lib.Join

namespace Tmg.Nob

open Lib

variable {ν : Type*}

/-- An argument of `Cmd:append`; `ν` are the numbers.  A list may have holes. -/
inductive AppendArg (ν : Type*) where
  | nil
  | string (s : Bytes)
  | number (n : ν)
  | list (vs : List (AppendArg ν))

namespace AppendArg

/-- What an `ipairs` loop ends at. -/
def isNil : AppendArg ν → Bool
  | nil => true
  | _ => false

variable (fmt : ν → Bytes)

mutual

/-- The body of the loop of `Cmd:append`, for one argument. -/
def insert (args : List Bytes) : AppendArg ν → List Bytes
  | nil => args
  | string s => args ++ [s]
  | number n => args ++ [fmt n]
  | list vs => insertEach args vs

/-- `for _, arg in ipairs(...)` -/
def insertEach (args : List Bytes) : List (AppendArg ν) → List Bytes
  | [] => args
  | v :: vs => if v.isNil then args else insertEach (insert args v) vs

end

mutual

/-- The strings and numbers of an argument, in order. -/
def flatten : AppendArg ν → List Bytes
  | nil => []
  | string s => [s]
  | number n => [fmt n]
  | list vs => flattenEach vs

/-- The strings and numbers of a list of arguments, in order. -/
def flattenEach : List (AppendArg ν) → List Bytes
  | [] => []
  | v :: vs => flatten v ++ flattenEach vs

end

mutual

/-- Nothing but nils and lists of such. -/
def Hollow : AppendArg ν → Prop
  | nil => True
  | string _ => False
  | number _ => False
  | list vs => HollowEach vs

def HollowEach : List (AppendArg ν) → Prop
  | [] => True
  | v :: vs => Hollow v ∧ HollowEach vs

end

mutual

/-- No nil in the lists of the argument has a string or a number behind it. -/
def Whole : AppendArg ν → Prop
  | nil => True
  | string _ => True
  | number _ => True
  | list vs => WholeEach vs

def WholeEach : List (AppendArg ν) → Prop
  | [] => True
  | v :: vs => if v.isNil then HollowEach vs else Whole v ∧ WholeEach vs

end

end AppendArg

/-- `Cmd:append` -/
def Cmd.append (fmt : ν → Bytes) (c : Cmd) (vs : List (AppendArg ν)) : Cmd :=
  { c with args := AppendArg.insertEach fmt c.args vs }

namespace AppendArg

variable {fmt : ν → Bytes}

/-! ## What is added -/

mutual

theorem insert_eq (args : List Bytes) :
    ∀ v : AppendArg ν, insert fmt args v = args ++ insert fmt [] v
  | nil => by simp [insert]
  | string s => rfl
  | number n => rfl
  | list vs => by rw [insert, insert, insertEach_eq args vs]

theorem insertEach_eq (args : List Bytes) :
    ∀ vs : List (AppendArg ν), insertEach fmt args vs = args ++ insertEach fmt [] vs
  | [] => by simp [insertEach]
  | v :: vs => by
      rw [insertEach, insertEach]
      split
      · simp
      · rw [insertEach_eq (insert fmt args v) vs, insertEach_eq (insert fmt [] v) vs,
          insert_eq args v, List.append_assoc]

end

mutual

theorem flatten_eq_nil_iff : ∀ v : AppendArg ν, flatten fmt v = [] ↔ v.Hollow
  | nil => by simp [flatten, Hollow]
  | string s => by simp [flatten, Hollow]
  | number n => by simp [flatten, Hollow]
  | list vs => by rw [flatten, Hollow, flattenEach_eq_nil_iff vs]

theorem flattenEach_eq_nil_iff : ∀ vs : List (AppendArg ν), flattenEach fmt vs = [] ↔ HollowEach vs
  | [] => by simp [flattenEach, HollowEach]
  | v :: vs => by
      rw [flattenEach, HollowEach, List.append_eq_nil_iff, flatten_eq_nil_iff v,
        flattenEach_eq_nil_iff vs]

end

/-- The loop over the arguments, one at a time. -/
theorem insertEach_cons (v : AppendArg ν) (vs : List (AppendArg ν)) :
    insertEach fmt [] (v :: vs)
      = if v.isNil then [] else insert fmt [] v ++ insertEach fmt [] vs := by
  rw [insertEach]
  split
  · rfl
  · exact insertEach_eq _ vs

theorem flatten_of_isNil {v : AppendArg ν} (h : v.isNil = true) : flatten fmt v = [] := by
  cases v with
  | nil => rfl
  | string _ | number _ | list _ => exact absurd h (by simp [isNil])

mutual

/-- Nothing is added that is not there. -/
theorem insert_length_le : ∀ v : AppendArg ν, (insert fmt [] v).length ≤ (flatten fmt v).length
  | nil => Nat.le_refl _
  | string _ => Nat.le_refl _
  | number _ => Nat.le_refl _
  | list vs => by
      rw [insert, flatten]
      exact insertEach_length_le vs

theorem insertEach_length_le :
    ∀ vs : List (AppendArg ν), (insertEach fmt [] vs).length ≤ (flattenEach fmt vs).length
  | [] => Nat.le_refl _
  | v :: vs => by
      have hv := insert_length_le v
      have hvs := insertEach_length_le vs
      rw [insertEach_cons, flattenEach, List.length_append]
      split
      · exact Nat.zero_le _
      · rw [List.length_append]
        omega

end

mutual

theorem insert_eq_flatten_iff : ∀ v : AppendArg ν, insert fmt [] v = flatten fmt v ↔ v.Whole
  | nil => iff_of_true rfl trivial
  | string _ => iff_of_true rfl trivial
  | number _ => iff_of_true rfl trivial
  | list vs => by rw [insert, flatten, Whole, insertEach_eq_flattenEach_iff vs]

theorem insertEach_eq_flattenEach_iff :
    ∀ vs : List (AppendArg ν), insertEach fmt [] vs = flattenEach fmt vs ↔ WholeEach vs
  | [] => iff_of_true rfl trivial
  | v :: vs => by
      rw [insertEach_cons, flattenEach, WholeEach]
      split
      · next hnil => rw [flatten_of_isNil hnil, List.nil_append, eq_comm, flattenEach_eq_nil_iff]
      · rw [append_eq_append_iff_of_le (insert_length_le v) (insertEach_length_le vs),
          insert_eq_flatten_iff v, insertEach_eq_flattenEach_iff vs]

end

end AppendArg

/-! ## A sequence of calls -/

open AppendArg

theorem foldl_append_args (fmt : ν → Bytes) (calls : List (List (AppendArg ν))) (c : Cmd) :
    (calls.foldl (Cmd.append fmt) c).args = c.args ++ calls.flatMap (insertEach fmt []) := by
  induction calls generalizing c with
  | nil => simp
  | cons vs calls ih =>
      rw [List.foldl_cons, ih, Cmd.append, insertEach_eq, List.flatMap_cons, List.append_assoc]

theorem flatMap_insertEach_length_le (fmt : ν → Bytes) (calls : List (List (AppendArg ν))) :
    (calls.flatMap (insertEach fmt [])).length ≤ (calls.flatMap (flattenEach fmt)).length := by
  induction calls with
  | nil => exact Nat.le_refl _
  | cons vs calls ih =>
      have hone : (insertEach fmt [] vs).length ≤ (flattenEach fmt vs).length :=
        insertEach_length_le vs
      rw [List.flatMap_cons, List.flatMap_cons, List.length_append, List.length_append]
      omega

/-- **After a sequence of calls the command has the flattened arguments exactly when no nil,
at any depth of any call, has a string or a number behind it.** -/
theorem append_eq_flatten_iff (fmt : ν → Bytes) (c : Cmd) (calls : List (List (AppendArg ν))) :
    (calls.foldl (Cmd.append fmt) c).args = c.args ++ calls.flatMap (flattenEach fmt) ↔
      ∀ vs ∈ calls, WholeEach vs := by
  rw [foldl_append_args, List.append_cancel_left_eq]
  induction calls with
  | nil => simp
  | cons vs calls ih =>
      rw [List.flatMap_cons, List.flatMap_cons,
        append_eq_append_iff_of_le (insertEach_length_le vs) (flatMap_insertEach_length_le fmt calls),
        insertEach_eq_flattenEach_iff, ih, List.forall_mem_cons]

/-- `cmd:append("gcc", nil, "a.c")`, an optional flag being nil. -/
theorem append_loses :
    let vs : List (AppendArg (Fin 10)) := [.string (ascii "gcc"), .nil, .string (ascii "a.c")]
    (Cmd.append (fun n => [48 + n.val.toUInt8]) ⟨[]⟩ vs).args = [ascii "gcc"] ∧
      flattenEach (fun n : Fin 10 => [48 + n.val.toUInt8]) vs = [ascii "gcc", ascii "a.c"] ∧
      ascii "a.c" ∉ (Cmd.append (fun n => [48 + n.val.toUInt8]) ⟨[]⟩ vs).args := by
  decide

end Tmg.Nob
