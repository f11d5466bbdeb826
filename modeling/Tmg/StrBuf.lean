/-
# `Tmg.StrBuf` — the buffer of a `str_t`, and when it holds its content

`Tmg.Str` has a `str_t` as its content.  Here it is what `str.c` has: a block from `malloc`,
`len` and `cap`, both a `size_t`.  The block grows by doubling, which needs something to
double:

    str_init(in_size * 2)      the int is 0     malloc(0), then data[0] = '\0'
                               the int is < 0   malloc of nearly 2^64 bytes, refused

`str_init` has the guard for one capacity, -1, and `arrstr_init` beside it the whole guard
(`cap <= 0`).  From a positive capacity on, a buffer stays in step with its content, as
long as the C library grants what it asks for (`Fill`); the first block that is refused is
written to all the same (`represented_iff`).

| source | here |
| :-- | :-- |
| `str_init`, `str_push_chr`, `str_push`, `str_pop_chr`, `str_clear` | `StrT.init`, `StrT.pushChr`, `StrT.push`, `StrT.popChr`, `StrT.clear` |
| a write outside the block, or through NULL | no result |
-/
import Tmg.Lib.Block
import Tmg.Lib.Run
import Tmg.Report

namespace Tmg

open Lib

/-! ## `str.c` -/

/-- `SIZE_MAX + 1` -/
def sizeRange : Nat := 0x10000000000000000

/-- `PTRDIFF_MAX`, the size above which no block is granted. -/
def ptrdiffMax : Nat := 0x7fffffffffffffff

/-- A sum or a product of `size_t`. -/
def toSizeT (n : Nat) : Nat := n % sizeRange

/-- The conversion of an `int` to a `size_t`. -/
def intToSizeT (v : Int) : Nat := (v % sizeRange).toNat

/-- The C library's allocator, by the sizes it grants. -/
abbrev CAllocator := Allocator ptrdiffMax

/-- `str_t` -/
structure StrT where
  data : Option (Block Byte)
  len : Nat
  cap : Nat
deriving DecidableEq

namespace StrT

variable (A : CAllocator)

/-- `str_init` -/
def init (cap : Int) : Option StrT := do
  let size := intToSizeT (if cap = -1 then 10 else cap)
  let data ← Block.store (Block.realloc A none size) 0 0
  return { data := some data, len := 0, cap := size }

/-- `str->cap = cap; str->data = realloc(str->data, sizeof(char) * str->cap);` -/
def grow (str : StrT) (cap : Nat) : StrT :=
  { str with data := Block.realloc A str.data cap, cap := cap }

/-- `str_push_chr` -/
def pushChr (str : StrT) (c : Byte) : Option StrT := do
  let str := if toSizeT (str.len + 2) ≥ str.cap then str.grow A (toSizeT (str.cap * 2)) else str
  let data ← Block.store str.data str.len c
  let len := toSizeT (str.len + 1)
  let data ← Block.store (some data) len 0
  return { str with data := some data, len := len }

/-- `str_pop_chr` -/
def popChr (str : StrT) : Option StrT :=
  if str.len > 0 then do
    let data ← Block.store str.data (str.len - 1) 0
    return { str with data := some data, len := str.len - 1 }
  else some str

/-- `str_clear` -/
def clear (str : StrT) : Option StrT :=
  match str.data with
  | none => some { str with len := 0 }
  | some data => do
      let data ← Block.store (some data) 0 0
      return { str with data := some data, len := 0 }

/-- `str_push`, of what stands at `data` up to its first zero byte. -/
def push (str : StrT) (data : Bytes) : Option StrT := do
  let len := (cstr data).length
  let need := toSizeT (str.len + len + 1)
  let str := if need ≥ str.cap then str.grow A (toSizeT (need * 2)) else str
  let block ← Block.memcpy str.data str.len (cstr data)
  let len := toSizeT (str.len + len)
  let block ← Block.store (some block) len 0
  return { str with data := some block, len := len }

end StrT

/-! ## Runs -/

/-- A call on a buffer. -/
inductive StrOp where
  | pushChr (c : Byte)
  | push (data : Bytes)
  | popChr
  | clear
deriving DecidableEq, Repr

/-- The call, on the buffer. -/
def StrOp.run (A : CAllocator) (str : StrT) : StrOp → Option StrT
  | pushChr c => str.pushChr A c
  | push data => str.push A data
  | popChr => str.popChr
  | clear => str.clear

/-- The call, on the content. -/
def StrOp.content (s : Bytes) : StrOp → Bytes
  | pushChr c => strPushChr s c
  | push data => strPush s data
  | popChr => s.dropLast
  | clear => []

/-- The buffer holds `s`: there is room for it and the terminator, the block is as large as
`cap` says, its first bytes are `s`, and the terminator is behind them. -/
structure StrT.Holds (str : StrT) (s : Bytes) : Prop where
  room : str.len + 1 ≤ str.cap
  block : ∃ block, str.data = some block ∧ block.length = str.cap ∧
    block.take str.len = s.map some ∧ block[str.len]? = some (some 0)

/-- The buffers of `tmg_expand`. -/
inductive Buffer where
  | matchBuf (sep : CString)
  | builder (inSize : Int)
  | buffer
  | finalOutput (inSize : Int)

/-- `in_size * 2`, unless the `long` overflows. -/
def doubled (inSize : Int) : Option Int :=
  if -longMax - 1 ≤ inSize * 2 ∧ inSize * 2 ≤ longMax then some (inSize * 2) else none

/-- The capacity given to `str_init`, an `int`. -/
def Buffer.cap : Buffer → Option Int
  | matchBuf sep => some (toInt (toSizeT (sep.strlen + 1)))
  | builder inSize => (doubled inSize).map toInt
  | buffer => some 100
  | finalOutput inSize => (doubled inSize).map toInt

/-- The buffer after some calls. -/
def Buffer.run (A : CAllocator) (b : Buffer) (ops : List StrOp) : Option StrT := do
  let cap ← b.cap
  let str ← StrT.init A cap
  ops.foldlM (StrOp.run A) str

/-- From `str_init` on, and after every call, the buffer holds what was pushed. -/
def Buffer.Represented (A : CAllocator) (b : Buffer) (ops : List StrOp) : Prop :=
  ∀ p, p <+: ops → ∃ str, b.run A p = some str ∧ str.Holds (p.foldl StrOp.content [])

/-! ## What is asked for -/

/-- A buffer by its content and its capacity, in plain numbers. -/
structure Fill where
  content : Bytes
  cap : Nat

/-- The size of the block that a call asks for. -/
def Fill.asks (b : Fill) : StrOp → Option Nat
  | .pushChr _ => if b.content.length + 2 ≥ b.cap then some (b.cap * 2) else none
  | .push data =>
      let need := b.content.length + (cstr data).length + 1
      if need ≥ b.cap then some (need * 2) else none
  | .popChr => none
  | .clear => none

/-- The call, on content and capacity. -/
def Fill.next (b : Fill) (op : StrOp) : Fill := ⟨op.content b.content, (b.asks op).getD b.cap⟩

/-- What the call asks for is granted. -/
def Fill.Granted (A : CAllocator) (b : Fill) (op : StrOp) : Prop := ∀ n ∈ b.asks op, A.grants n

/-- The buffer is as `b` has it. -/
def StrT.Tracks (str : StrT) (b : Fill) : Prop :=
  ∃ rest, str = ⟨some (b.content.map some ++ some 0 :: rest), b.content.length, b.cap⟩ ∧
    b.cap = b.content.length + 1 + rest.length ∧ b.cap ≤ ptrdiffMax

theorem StrT.Tracks.holds {str : StrT} {b : Fill} (h : str.Tracks b) : str.Holds b.content := by
  obtain ⟨rest, rfl, hcap, -⟩ := h
  refine ⟨?_, _, rfl, ?_, ?_, ?_⟩
  · show b.content.length + 1 ≤ b.cap
    omega
  · simp [hcap]
    omega
  · simp
  · simp

/-! ## One call -/

section

variable {A : CAllocator}

theorem toSizeT_of_lt {n : Nat} (h : n < sizeRange) : toSizeT n = n := Nat.mod_eq_of_lt h

/-- Two cells behind the content take a byte more and the terminator. -/
theorem store_chr (s : Bytes) {r : Block Byte} (hr : 2 ≤ r.length) (c : Byte) :
    ∃ data, Block.store (some (s.map some ++ r)) s.length c = some data ∧
      Block.store (some data) (s.length + 1) 0
        = some ((s ++ [c]).map some ++ some 0 :: r.drop 2) := by
  obtain ⟨x, y, r, rfl⟩ : ∃ x y t, r = x :: y :: t := by
    match r, hr with
    | x :: y :: t, _ => exact ⟨x, y, t, rfl⟩
  refine ⟨(s ++ [c]).map some ++ y :: r, ?_, ?_⟩
  · rw [Block.store_filled]
    simp
  · have hterm := Block.store_filled (s ++ [c]) y r 0
    rwa [List.length_append] at hterm

/-- Space for more bytes behind the content, and the terminator. -/
theorem memcpy_bytes (s : Bytes) {r : Block Byte} (cs : Bytes) (hr : cs.length + 1 ≤ r.length) :
    ∃ block, Block.memcpy (some (s.map some ++ r)) s.length cs = some block ∧
      Block.store (some block) (s.length + cs.length) 0
        = some ((s ++ cs).map some ++ some 0 :: r.drop (cs.length + 1)) := by
  have hdrop : r.drop cs.length = r[cs.length] :: r.drop (cs.length + 1) :=
    List.drop_eq_getElem_cons hr
  refine ⟨_, Block.memcpy_filled s (by omega), ?_⟩
  have hterm := Block.store_filled (s ++ cs) r[cs.length] (r.drop (cs.length + 1)) 0
  rwa [List.length_append, ← hdrop] at hterm

/-- A buffer after the first statement of either push, if what it asks for is granted. -/
theorem grow_filled {s : Bytes} {rest : Block Byte} {cap size : Nat} (need : Nat)
    (hcap : cap = s.length + 1 + rest.length) (hmax : cap ≤ ptrdiffMax)
    (hsize : need ≥ cap → need ≤ size) (hs : need ≥ cap → s.length ≤ size)
    (hg : ∀ n ∈ if need ≥ cap then some size else none, A.grants n) :
    ∃ r cap',
      (if need ≥ cap then
          (⟨some (s.map some ++ some 0 :: rest), s.length, cap⟩ : StrT).grow A size
        else ⟨some (s.map some ++ some 0 :: rest), s.length, cap⟩)
        = ⟨some (s.map some ++ r), s.length, cap'⟩ ∧
      cap' = (if need ≥ cap then some size else none).getD cap ∧
      cap' = s.length + r.length ∧ need ≤ cap' ∧ cap' ≤ ptrdiffMax := by
  by_cases hfull : need ≥ cap
  · simp only [hfull, if_true, Option.mem_some_iff, forall_eq'] at hg ⊢
    have hdata := Block.resized_filled (hs hfull) (some 0 :: rest)
    have hlen := Block.length_resized (some 0 :: rest) (size - s.length)
    refine ⟨Block.resized (some 0 :: rest) (size - s.length), size, ?_, rfl, ?_, hsize hfull,
      A.bounded _ hg⟩
    · rw [StrT.grow, Block.realloc_granted hg, Option.getD_some, hdata]
    · have hle := hs hfull
      omega
  · simp only [hfull, if_false]
    refine ⟨some 0 :: rest, cap, rfl, rfl, ?_, by omega, hmax⟩
    rw [List.length_cons]
    omega

/-- A block with the new content, the terminator and some cells more. -/
theorem tracks_next {b : Fill} {op : StrOp} {s : Bytes} {len cap : Nat} {rest : Block Byte}
    (hs : s = op.content b.content) (hlen : len = s.length)
    (hcap : cap = (b.asks op).getD b.cap) (hroom : cap = len + 1 + rest.length)
    (hmax : cap ≤ ptrdiffMax) :
    (⟨some (s.map some ++ some 0 :: rest), len, cap⟩ : StrT).Tracks (b.next op) := by
  subst hs hlen hcap
  exact ⟨rest, rfl, hroom, hmax⟩

theorem pushChr_tracks {str : StrT} {b : Fill} (c : Byte) (h : str.Tracks b)
    (hg : b.Granted A (.pushChr c)) :
    ∃ str', str.pushChr A c = some str' ∧ str'.Tracks (b.next (.pushChr c)) := by
  obtain ⟨rest, rfl, hcap, hmax⟩ := h
  have hrange : ptrdiffMax * 2 + 2 = sizeRange := rfl
  have hneed : toSizeT (b.content.length + 2) = b.content.length + 2 := toSizeT_of_lt (by omega)
  have hdouble : toSizeT (b.cap * 2) = b.cap * 2 := toSizeT_of_lt (by omega)
  have hlen : toSizeT (b.content.length + 1) = b.content.length + 1 := toSizeT_of_lt (by omega)
  obtain ⟨r, cap, hgrow, hnext, hr, hroom, hle⟩ :=
    grow_filled (b.content.length + 2) hcap hmax (by omega) (by omega) hg
  obtain ⟨data, hfirst, hsecond⟩ := store_chr b.content (r := r) (by omega) c
  refine ⟨⟨some ((b.content ++ [c]).map some ++ some 0 :: r.drop 2), b.content.length + 1, cap⟩,
    ?_, tracks_next rfl (by simp) hnext ?_ hle⟩
  · simp only [StrT.pushChr, hneed, hdouble, hgrow, hfirst, hlen, hsecond, Option.bind_eq_bind,
      Option.bind_some, Option.pure_def]
  · rw [List.length_drop]
    omega

theorem push_tracks {str : StrT} {b : Fill} (data : Bytes) (h : str.Tracks b)
    (hg : b.Granted A (.push data)) :
    ∃ str', str.push A data = some str' ∧ str'.Tracks (b.next (.push data)) := by
  obtain ⟨rest, rfl, hcap, hmax⟩ := h
  have hrange : ptrdiffMax * 2 + 2 = sizeRange := rfl
  obtain ⟨r, cap, hgrow, hnext, hr, hroom, hle⟩ :=
    grow_filled (b.content.length + (cstr data).length + 1) hcap hmax (by omega)
      (by omega) hg
  have hneed : toSizeT (b.content.length + (cstr data).length + 1)
      = b.content.length + (cstr data).length + 1 := toSizeT_of_lt (by omega)
  have hdouble : toSizeT ((b.content.length + (cstr data).length + 1) * 2)
      = (b.content.length + (cstr data).length + 1) * 2 := toSizeT_of_lt (by omega)
  have hlen : toSizeT (b.content.length + (cstr data).length)
      = b.content.length + (cstr data).length := toSizeT_of_lt (by omega)
  obtain ⟨block, hfirst, hsecond⟩ := memcpy_bytes b.content (r := r) (cstr data) (by omega)
  refine ⟨⟨some ((b.content ++ cstr data).map some ++ some 0 :: r.drop ((cstr data).length + 1)),
    b.content.length + (cstr data).length, cap⟩, ?_, tracks_next rfl (by simp) hnext ?_ hle⟩
  · simp only [StrT.push, hneed, hdouble, hgrow, hfirst, hlen, hsecond, Option.bind_eq_bind,
      Option.bind_some, Option.pure_def]
  · rw [List.length_drop]
    omega

theorem popChr_tracks {str : StrT} {b : Fill} (h : str.Tracks b) :
    ∃ str', str.popChr = some str' ∧ str'.Tracks (b.next .popChr) := by
  obtain ⟨rest, rfl, hcap, hmax⟩ := h
  obtain ⟨s, cap⟩ := b
  obtain rfl | ⟨s, c, rfl⟩ := s.eq_nil_or_concat
  · exact ⟨_, rfl, rest, rfl, hcap, hmax⟩
  · have hterm := Block.store_filled s (some c) (some 0 :: rest) 0
    refine ⟨⟨some (s.map some ++ some 0 :: some 0 :: rest), s.length, cap⟩, ?_,
      tracks_next (by simp [StrOp.content]) rfl rfl ?_ hmax⟩
    · simp [StrT.popChr, hterm]
    · simp at hcap ⊢
      omega

theorem clear_tracks {str : StrT} {b : Fill} (h : str.Tracks b) :
    ∃ str', str.clear = some str' ∧ str'.Tracks (b.next .clear) := by
  obtain ⟨rest, rfl, hcap, hmax⟩ := h
  obtain ⟨s, cap⟩ := b
  cases s with
  | nil => exact ⟨_, rfl, rest, rfl, hcap, hmax⟩
  | cons c s =>
      refine ⟨_, rfl, s.map some ++ some 0 :: rest, rfl, ?_, hmax⟩
      simp [Fill.next, Fill.asks, StrOp.content] at hcap ⊢
      omega

theorem run_tracks {str : StrT} {b : Fill} (op : StrOp) (h : str.Tracks b)
    (hg : b.Granted A op) : ∃ str', op.run A str = some str' ∧ str'.Tracks (b.next op) := by
  cases op with
  | pushChr c => exact pushChr_tracks c h hg
  | push data => exact push_tracks data h hg
  | popChr => exact popChr_tracks h
  | clear => exact clear_tracks h

/-! ## A call that is refused -/

theorem pushChr_refused {str : StrT} {b : Fill} (c : Byte) (h : str.Tracks b)
    (hg : ¬ b.Granted A (.pushChr c)) : str.pushChr A c = none := by
  obtain ⟨rest, rfl, hcap, hmax⟩ := h
  have hrange : ptrdiffMax * 2 + 2 = sizeRange := rfl
  have hneed : toSizeT (b.content.length + 2) = b.content.length + 2 := toSizeT_of_lt (by omega)
  have hdouble : toSizeT (b.cap * 2) = b.cap * 2 := toSizeT_of_lt (by omega)
  by_cases hfull : b.content.length + 2 ≥ b.cap
  · have hrefused : ¬ A.grants (b.cap * 2) := by simpa [Fill.Granted, Fill.asks, hfull] using hg
    simp only [StrT.pushChr, hneed, hfull, if_true, hdouble, StrT.grow,
      Block.realloc_refused hrefused]
    rfl
  · exact absurd (by simp [Fill.Granted, Fill.asks, hfull]) hg

/-- A block too small for the bytes and the terminator is written outside. -/
theorem memcpy_small {p : Option (Block Byte)} {i : Nat} {cs : Bytes}
    (hp : ∀ block ∈ p, block.length ≤ i + cs.length ∧ block.length ≤ ptrdiffMax) :
    (do let block ← Block.memcpy p i cs
        Block.store (some block) (toSizeT (i + cs.length)) 0) = none := by
  cases p with
  | none => rfl
  | some block =>
      obtain ⟨hsmall, hmax⟩ := hp block rfl
      by_cases hfit : i + cs.length ≤ block.length
      · have hrange : ptrdiffMax * 2 + 2 = sizeRange := rfl
        have hlen : toSizeT (i + cs.length) = i + cs.length := toSizeT_of_lt (by omega)
        have hcopy : Block.memcpy (some block) i cs = _ := if_pos hfit
        rw [hcopy, hlen]
        refine Block.store_outside ?_ 0
        simp
        omega
      · rw [Block.memcpy_outside (by omega)]
        rfl

/-- The block of a buffer after the first statement of either push is at most as large as
a block can be. -/
theorem grow_length_le {str : StrT} {need size : Nat} {block : Block Byte}
    (hstr : ∀ block ∈ str.data, block.length ≤ ptrdiffMax)
    (hblock : (if need ≥ str.cap then str.grow A size else str).data = some block) :
    block.length ≤ ptrdiffMax := by
  by_cases hfull : need ≥ str.cap
  · rw [if_pos hfull] at hblock
    exact Block.realloc_length_le hblock
  · rw [if_neg hfull] at hblock
    exact hstr block hblock

/-- `str_push` with its writes in one. -/
theorem push_eq (A : CAllocator) (str : StrT) (data : Bytes) :
    str.push A data =
      let need := toSizeT (str.len + (cstr data).length + 1)
      let p := if need ≥ str.cap then str.grow A (toSizeT (need * 2)) else str
      let len := toSizeT (str.len + (cstr data).length)
      (do let block ← Block.memcpy p.data str.len (cstr data)
          Block.store (some block) len 0).map fun block =>
            { p with data := some block, len := len } := by
  have hlen : ∀ size,
      (if toSizeT (str.len + (cstr data).length + 1) ≥ str.cap then str.grow A size else str).len
        = str.len := fun size => by
    split <;> rfl
  simp only [StrT.push, hlen, Option.bind_eq_bind, Option.map_eq_bind, Option.bind_assoc]
  rfl

theorem push_refused {str : StrT} {b : Fill} (data : Bytes) (h : str.Tracks b)
    (hg : ¬ b.Granted A (.push data)) : str.push A data = none := by
  have hrange : ptrdiffMax * 2 + 2 = sizeRange := rfl
  have hcap : str.cap = b.cap := by
    obtain ⟨rest, rfl, -, -⟩ := h
    rfl
  have hlen : str.len = b.content.length := by
    obtain ⟨rest, rfl, -, -⟩ := h
    rfl
  have hmax : ∀ block ∈ str.data, block.length ≤ ptrdiffMax := by
    obtain ⟨rest, rfl, hcap, hmax⟩ := h
    intro block hblock
    rw [← Option.some.inj hblock]
    simp
    omega
  have hasks : b.content.length + (cstr data).length + 1 ≥ b.cap := by
    by_contra hroom
    exact hg (by simp [Fill.Granted, Fill.asks, hroom])
  have hrefused : ¬ A.grants ((b.content.length + (cstr data).length + 1) * 2) := by
    simpa [Fill.Granted, Fill.asks, hasks] using hg
  rw [push_eq]
  refine Option.map_eq_none_iff.mpr (memcpy_small ?_)
  intro block hblock
  by_cases hover : (b.content.length + (cstr data).length + 1) * 2 < sizeRange
  · have hneed : toSizeT (str.len + (cstr data).length + 1)
        = b.content.length + (cstr data).length + 1 := by
      rw [hlen]
      exact toSizeT_of_lt (by omega)
    rw [hneed, toSizeT_of_lt hover, hcap, if_pos hasks, StrT.grow] at hblock
    rw [Option.mem_def, Block.realloc_refused hrefused] at hblock
    cases hblock
  · -- the size wraps around; the block is at most as large as one can be, and too small
    have hle := grow_length_le hmax hblock
    omega

theorem run_refused {str : StrT} {b : Fill} (op : StrOp) (h : str.Tracks b)
    (hg : ¬ b.Granted A op) : op.run A str = none := by
  cases op with
  | pushChr c => exact pushChr_refused c h hg
  | push data => exact push_refused data h hg
  | popChr => exact absurd (fun n hn => by cases hn) hg
  | clear => exact absurd (fun n hn => by cases hn) hg

/-! ## `str_init` -/

/-- The size that `str_init` asks for. -/
def firstSize (cap : Int) : Nat := if cap = -1 then 10 else cap.toNat

/-- The buffer, by the numbers, as `str_init` should make it. -/
def Fill.first (cap : Int) : Fill := ⟨[], firstSize cap⟩

theorem intToSizeT_firstSize {cap : Int} (hpos : 0 < cap ∨ cap = -1) (hint : cap ≤ intMax) :
    intToSizeT (if cap = -1 then 10 else cap) = firstSize cap := by
  have hmax : (intMax : Int) < sizeRange := by decide
  by_cases hcap : cap = -1
  · subst hcap
    decide
  · rw [firstSize, if_neg hcap, if_neg hcap, intToSizeT, Int.emod_eq_of_lt (by omega) (by omega)]

theorem init_tracks {cap : Int} (hpos : 0 < cap ∨ cap = -1) (hint : cap ≤ intMax)
    (hg : A.grants (firstSize cap)) :
    ∃ str, StrT.init A cap = some str ∧ str.Tracks (Fill.first cap) := by
  obtain ⟨n, hn⟩ : ∃ n, firstSize cap = n + 1 := by
    refine Nat.exists_eq_succ_of_ne_zero ?_
    rw [firstSize]
    split <;> omega
  refine ⟨⟨some (some 0 :: List.replicate n none), 0, firstSize cap⟩, ?_, List.replicate n none,
    rfl, ?_, A.bounded _ hg⟩
  · rw [StrT.init, intToSizeT_firstSize hpos hint, Block.realloc_granted hg, hn]
    rfl
  · rw [Fill.first, hn]
    simp
    omega

/-- Nothing can be written to a block of no cells, nor to none. -/
theorem store_first {n : Nat} (h : n = 0 ∨ ¬ A.grants n) :
    Block.store (Block.realloc A (none : Option (Block Byte)) n) 0 0 = none := by
  by_cases hn : A.grants n = true
  · obtain rfl := h.resolve_right (not_not_intro hn)
    rw [Block.realloc_granted hn]
    rfl
  · rw [Block.realloc_refused hn]
    rfl

theorem init_refused {cap : Int} (hlow : -(intMax : Int) - 1 ≤ cap) (hint : cap ≤ intMax)
    (h : ¬ ((0 < cap ∨ cap = -1) ∧ A.grants (firstSize cap))) : StrT.init A cap = none := by
  have hfirst : intToSizeT (if cap = -1 then 10 else cap) = 0 ∨
      ¬ A.grants (intToSizeT (if cap = -1 then 10 else cap)) := by
    by_cases hpos : 0 < cap ∨ cap = -1
    · rw [intToSizeT_firstSize hpos hint]
      exact .inr fun hg => h ⟨hpos, hg⟩
    · by_cases h0 : cap = 0
      · subst h0
        exact .inl (by decide)
      · -- a negative capacity is a size of nearly 2^64
        have hrange : ptrdiffMax * 2 + 2 = sizeRange := rfl
        have hmax : intMax < ptrdiffMax := by decide
        have hbig : ptrdiffMax < intToSizeT cap := by
          rw [intToSizeT, ← Int.add_emod_right, Int.emod_eq_of_lt (by omega) (by omega)]
          omega
        rw [if_neg (by omega)]
        exact .inr fun hg => absurd (A.bounded _ hg) (by omega)
  rw [StrT.init, store_first hfirst]
  rfl

/-! ## Runs of calls -/

theorem toInt_ge (v : Int) : -(intMax : Int) - 1 ≤ toInt v := by
  rw [toInt, intMax]
  have := Int.le_bmod (x := v) (m := 0x100000000) (by decide)
  omega

/-- A capacity is an `int`. -/
theorem Buffer.cap_int {b : Buffer} {cap : Int} (h : b.cap = some cap) :
    -(intMax : Int) - 1 ≤ cap ∧ cap ≤ intMax := by
  cases b with
  | matchBuf sep =>
      obtain rfl := Option.some.inj h
      exact ⟨toInt_ge _, toInt_le _⟩
  | builder inSize =>
      obtain ⟨v, -, rfl⟩ := Option.map_eq_some_iff.mp h
      exact ⟨toInt_ge _, toInt_le _⟩
  | buffer =>
      obtain rfl := Option.some.inj h
      decide
  | finalOutput inSize =>
      obtain ⟨v, -, rfl⟩ := Option.map_eq_some_iff.mp h
      exact ⟨toInt_ge _, toInt_le _⟩

/-- The capacity is one to grow from, and every block that the calls ask for is granted. -/
def Buffer.Grows (A : CAllocator) (b : Buffer) (ops : List StrOp) : Prop :=
  ∃ cap, b.cap = some cap ∧ ((0 < cap ∨ cap = -1) ∧ A.grants (firstSize cap)) ∧
    Always Fill.next (fun b op _ => b.Granted A op) (Fill.first cap) ops

theorem content_foldl (ops : List StrOp) (b : Fill) :
    (ops.foldl Fill.next b).content = ops.foldl StrOp.content b.content := by
  induction ops generalizing b with
  | nil => rfl
  | cons op ops ih => exact ih (b.next op)

/-- The calls of a prefix ask for no more than all of them. -/
theorem Buffer.Grows.of_prefix {b : Buffer} {p ops : List StrOp} (h : b.Grows A ops)
    (hp : p <+: ops) : b.Grows A p := by
  obtain ⟨cap, hcap, hfirst, hrun⟩ := h
  obtain ⟨r, rfl⟩ := hp
  exact ⟨cap, hcap, hfirst, (always_append.mp hrun).1⟩

theorem Buffer.Grows.holds {b : Buffer} {ops : List StrOp} (h : b.Grows A ops) :
    ∃ str, b.run A ops = some str ∧ str.Holds (ops.foldl StrOp.content []) := by
  obtain ⟨cap, hcap, ⟨hpos, hg⟩, hrun⟩ := h
  obtain ⟨str, hinit, htracks⟩ := init_tracks hpos (Buffer.cap_int hcap).2 hg
  obtain ⟨str', hstr', htracks'⟩ : ∃ str', ops.foldlM (StrOp.run A) str = some str' ∧
      str'.Tracks (ops.foldl Fill.next (Fill.first cap)) :=
    foldlM_tracks (@run_tracks A) htracks hrun
  refine ⟨str', ?_, ?_⟩
  · simp only [Buffer.run, hcap, hinit, Option.bind_eq_bind, Option.bind_some, hstr']
  · have hholds := htracks'.holds
    rw [content_foldl] at hholds
    exact hholds

/-- A run that has a result is one in which every block was granted. -/
theorem Buffer.grows_of_run {b : Buffer} {ops : List StrOp} {str : StrT}
    (h : b.run A ops = some str) : b.Grows A ops := by
  obtain ⟨cap, hcap, h⟩ := Option.bind_eq_some_iff.mp h
  obtain ⟨first, hinit, h⟩ := Option.bind_eq_some_iff.mp h
  obtain ⟨hlow, hint⟩ := Buffer.cap_int hcap
  have hfirst : (0 < cap ∨ cap = -1) ∧ A.grants (firstSize cap) := by
    by_contra hno
    rw [init_refused hlow hint hno] at hinit
    cases hinit
  obtain ⟨first', hinit', htracks⟩ := init_tracks hfirst.1 hint hfirst.2
  obtain rfl : first = first' := Option.some.inj (hinit.symm.trans hinit')
  have hiff : (ops.foldlM (StrOp.run A) first).isSome ↔
      Always Fill.next (fun b op _ => b.Granted A op) (Fill.first cap) ops :=
    isSome_foldlM_iff (@run_tracks A) (@run_refused A) htracks
  exact ⟨cap, hcap, hfirst, hiff.mp (h ▸ rfl)⟩

/-- A buffer holds what is pushed, from `str_init` on, exactly if its capacity as an `int`
is positive or -1 and the blocks asked for are granted. -/
theorem represented_iff (A : CAllocator) (b : Buffer) (ops : List StrOp) :
    b.Represented A ops ↔ b.Grows A ops := by
  constructor
  · intro h
    obtain ⟨str, hstr, -⟩ := h ops List.prefix_rfl
    exact Buffer.grows_of_run hstr
  · intro h p hp
    exact (h.of_prefix hp).holds

end

/-- An allocator that grants every block there can be. -/
def everyBlock : CAllocator := ⟨fun n => n ≤ ptrdiffMax, fun _ h => of_decide_eq_true h⟩

/-- An empty template, and one that cannot be measured, have no buffer to begin with. -/
theorem represented_empty :
    ¬ (Buffer.builder 0).Represented everyBlock [] ∧
      ¬ (Buffer.builder (-1)).Represented everyBlock [] := by
  have hempty : (Buffer.builder 0).run everyBlock [] = none := by decide
  have hpipe : (Buffer.builder (-1)).run everyBlock [] = none := by decide
  constructor
  · intro h
    obtain ⟨str, hstr, -⟩ := h [] List.prefix_rfl
    exact Option.some_ne_none str (hstr.symm.trans hempty)
  · intro h
    obtain ⟨str, hstr, -⟩ := h [] List.prefix_rfl
    exact Option.some_ne_none str (hstr.symm.trans hpipe)

/-- A template of less than a gigabyte has a buffer of twice its size. -/
theorem cap_builder {inSize : Int} (h0 : 0 ≤ inSize) (h : inSize < 0x40000000) :
    (Buffer.builder inSize).cap = some (inSize * 2) := by
  have hlong : doubled inSize = some (inSize * 2) := by
    rw [doubled, longMax]
    exact if_pos (by omega)
  have hint : toInt (inSize * 2) = inSize * 2 := by
    rw [toInt]
    exact Int.bmod_eq_of_le (by omega) (by omega)
  rw [Buffer.cap, hlong, Option.map_some, hint]

example : (Buffer.builder 1).run everyBlock [.pushChr 97, .push [98], .popChr]
    = some ⟨some [some 97, some 0, some 0, none], 1, 4⟩ := by decide

end Tmg
