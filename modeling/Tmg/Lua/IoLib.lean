/-
# `Tmg.Lua.IoLib` — the lines of a file

`io_file_readline` reads a line piece by piece: `fgets` reads as far as the buffer has room, `strlen`
says how much of it there is, and where the newline has not come yet the buffer is made twice as
large when it is nearly full.  `ioLines` is what a loop over `f:lines()` is given.

`LineBuf` is the buffer with what the loop keeps of it: there is room for more than 64 bytes, so
every `fgets` reads something.

For a file without zero bytes the lines are those between the newlines, however long they are.  At a
zero byte `strlen` stops, and what is behind it on the line is lost; so these files are the only ones
that are read right (`ioLines_eq_iff`).
-/
import Tmg.Str
import Mathlib.Data.List.TakeWhile
import Mathlib.Tactic.Common

namespace Tmg.Lua

/-- `fgets`, for a buffer of `size` bytes. -/
def fgets (size : Nat) (s : Bytes) : Option (Bytes × Bytes) :=
  if s = [] then none
  else
    let n := min (size - 1) ((s.takeWhile (· ≠ nl)).length + 1)
    some (s.take n, s.drop n)

/-- The buffer: its size `m`, and its first `n` bytes. -/
structure LineBuf where
  m : Nat
  buf : Bytes
  room : buf.length + 64 < m

namespace LineBuf

/-- Bytes are read into the buffer, which is made larger if `n >= m - 64` then. -/
def push (b : LineBuf) (bs : Bytes) (h : b.buf.length + bs.length < b.m) : LineBuf :=
  if hfull : b.m ≤ (b.buf ++ bs).length + 64 then
    ⟨b.m + b.m, b.buf ++ bs, by
      have hroom := b.room
      rw [List.length_append]
      omega⟩
  else ⟨b.m, b.buf ++ bs, by omega⟩

@[simp] theorem push_buf (b : LineBuf) (bs : Bytes) (h : b.buf.length + bs.length < b.m) :
    (b.push bs h).buf = b.buf ++ bs := by
  rw [push]
  split <;> rfl

end LineBuf

/-- What `fgets` reads fits in, and there is less left. -/
theorem fgets_spec {b : LineBuf} {s piece rest : Bytes}
    (h : fgets (b.m - b.buf.length) s = some (piece, rest)) :
    b.buf.length + (cstr piece).length < b.m ∧ rest.length < s.length := by
  have hroom := b.room
  rw [fgets] at h
  split at h
  · exact absurd h (by simp)
  · next hne =>
      obtain ⟨rfl, rfl⟩ := Prod.mk.inj (Option.some.inj h)
      have hpos := List.length_pos_of_ne_nil hne
      have hcstr := length_cstr_le (s.take (min (b.m - b.buf.length - 1) ((s.takeWhile (· ≠ nl)).length + 1)))
      rw [List.length_take] at hcstr
      rw [List.length_drop]
      omega

/-- The loop of `io_file_readline`: the line, whether something was read, and what is left. -/
def readlineLoop (b : LineBuf) (ok : Bool) (s : Bytes) : Bytes × Bool × Bytes :=
  match h : fgets (b.m - b.buf.length) s with
  | none => (b.buf, ok, s)
  | some (piece, rest) =>
      if (b.buf ++ cstr piece).getLast? = some nl then ((b.buf ++ cstr piece).dropLast, true, rest)
      else
        readlineLoop (b.push (cstr piece) (fgets_spec h).1) (ok || b.buf ++ cstr piece ≠ []) rest
termination_by s.length
decreasing_by exact (fgets_spec h).2

/-- `io_file_readline`, with a buffer of `m` bytes at first: the line or nil, and what is left. -/
def readline {m : Nat} (hm : 64 < m) (s : Bytes) : Option Bytes × Bytes :=
  let (line, ok, rest) := readlineLoop ⟨m, [], hm⟩ false s
  (if ok then some line else none, rest)

/-! ## A line -/

/-- What is behind a line: nothing, or its newline and more. -/
def LineEnd (d : Bytes) : Prop := d = [] ∨ ∃ t, d = nl :: t

/-- A line in front. -/
theorem exists_line (s : Bytes) : ∃ w d, s = w ++ d ∧ nl ∉ w ∧ LineEnd d := by
  induction s with
  | nil => exact ⟨[], [], rfl, List.not_mem_nil, .inl rfl⟩
  | cons c s ih =>
      by_cases hc : c = nl
      · exact ⟨[], c :: s, rfl, List.not_mem_nil, .inr ⟨s, congrArg (· :: s) hc⟩⟩
      · obtain ⟨w, d, rfl, hw, hd⟩ := ih
        exact ⟨c :: w, d, rfl, by simp [Ne.symm hc, hw], hd⟩

/-- `fgets` reads the line with its newline, or a part of it. -/
theorem fgets_line {size : Nat} (hsize : 2 ≤ size) {w d : Bytes} (hw : nl ∉ w) (hd : LineEnd d)
    (hne : w ++ d ≠ []) :
    (∃ t, d = nl :: t ∧ fgets size (w ++ d) = some (w ++ [nl], t)) ∨
      ∃ u v, w = u ++ v ∧ u ≠ [] ∧ fgets size (w ++ d) = some (u, v ++ d) := by
  have hplain : ∀ c ∈ w, decide (c ≠ nl) = true := fun c hc => decide_eq_true fun h => hw (h ▸ hc)
  have hline : (w ++ d).takeWhile (· ≠ nl) = w := by
    rw [List.takeWhile_append_of_pos hplain]
    rcases hd with rfl | ⟨t, rfl⟩ <;> simp
  have hread : fgets size (w ++ d) = some ((w ++ d).take (min (size - 1) (w.length + 1)),
      (w ++ d).drop (min (size - 1) (w.length + 1))) := by
    rw [fgets, if_neg hne, hline]
  rw [hread]
  by_cases hfit : w.length + 1 ≤ size - 1
  · rw [Nat.min_eq_right hfit]
    rcases hd with rfl | ⟨t, rfl⟩
    · rw [List.append_nil] at hne
      exact .inr ⟨w, [], (List.append_nil w).symm, hne, by simp⟩
    · exact .inl ⟨t, rfl, by simp [List.take_append, List.drop_append]⟩
  · have hle : size - 1 ≤ w.length := by omega
    rw [Nat.min_eq_left (by omega), List.take_append_of_le_length hle, List.drop_append_of_le_length hle]
    refine .inr ⟨w.take (size - 1), w.drop (size - 1), (List.take_append_drop _ w).symm, fun hnil => ?_,
      rfl⟩
    have hlen := congrArg List.length hnil
    rw [List.length_take, List.length_nil] at hlen
    omega

/-- **The loop reads the line to its end**, however often the buffer runs full. -/
theorem readlineLoop_eq {d : Bytes} (hd : LineEnd d) :
    ∀ {w : Bytes} {b : LineBuf} {ok : Bool}, nl ∉ b.buf → nl ∉ w → 0 ∉ w →
      readlineLoop b ok (w ++ d) =
        if w ++ d = [] then (b.buf, ok, []) else (b.buf ++ w, true, d.tail) := by
  intro w
  induction hlen : w.length using Nat.strong_induction_on generalizing w with
  | _ k ih =>
      intro b ok hb hw h0
      by_cases hnil : w ++ d = []
      · rw [if_pos hnil, hnil, readlineLoop]
        rfl
      · have hroom := b.room
        have hsize : 2 ≤ b.m - b.buf.length := by omega
        rw [if_neg hnil, readlineLoop]
        obtain ⟨t, rfl, hread⟩ | ⟨u, v, rfl, hu, hread⟩ := fgets_line hsize hw hd hnil
        · have hzero : cstr (w ++ [nl]) = w ++ [nl] :=
            cstr_eq_self_iff.mpr (by simpa using ⟨h0, by decide⟩)
          split
          · next h => exact absurd (hread.symm.trans h) (by simp)
          · next h =>
              obtain ⟨rfl, rfl⟩ := Prod.mk.inj (Option.some.inj (hread.symm.trans h))
              have hlast : (b.buf ++ cstr (w ++ [nl])).getLast? = some nl := by
                rw [hzero, ← List.append_assoc, List.getLast?_concat]
              rw [if_pos hlast, hzero, ← List.append_assoc, List.dropLast_concat]
              rfl
        · rw [List.mem_append, not_or] at hw h0
          have hzero : cstr u = u := cstr_eq_self_iff.mpr h0.1
          have hbuf : nl ∉ b.buf ++ u := by simp [hb, hw.1]
          split
          · next h => exact absurd (hread.symm.trans h) (by simp)
          · next h =>
              obtain ⟨rfl, rfl⟩ := Prod.mk.inj (Option.some.inj (hread.symm.trans h))
              have hlast : (b.buf ++ cstr u).getLast? ≠ some nl := by
                rw [hzero]
                exact fun hlast => hbuf (List.mem_of_getLast? hlast)
              have hlt : v.length < k := by
                have hpos := List.length_pos_of_ne_nil hu
                rw [List.length_append] at hlen
                omega
              rw [if_neg hlast, ih v.length hlt rfl (by rwa [LineBuf.push_buf, hzero]) hw.2 h0.2,
                LineBuf.push_buf, hzero, List.append_assoc]
              by_cases hend : v ++ d = []
              · obtain ⟨rfl, rfl⟩ := List.append_eq_nil_iff.mp hend
                simp [hu]
              · rw [if_neg hend]

/-! ## The lines -/

/-- What is left behind a line that was read is shorter. -/
theorem readlineLoop_rest (b : LineBuf) (ok : Bool) (s : Bytes) :
    (readlineLoop b ok s).2.2.length ≤ s.length ∧
      ((readlineLoop b ok s).2.1 = true → ok = true ∨ (readlineLoop b ok s).2.2.length < s.length) := by
  fun_induction readlineLoop b ok s with
  | case1 => exact ⟨Nat.le_refl _, .inl⟩
  | case2 b ok s piece rest h =>
      have hlt := (fgets_spec h).2
      exact ⟨hlt.le, fun _ => .inr hlt⟩
  | case3 b ok s piece rest h hlast ih =>
      have hlt := (fgets_spec h).2
      exact ⟨ih.1.trans hlt.le, fun _ => .inr (ih.1.trans_lt hlt)⟩

theorem readline_eq_some {m : Nat} {hm : 64 < m} {s line rest : Bytes}
    (h : readline hm s = (some line, rest)) :
    readlineLoop ⟨m, [], hm⟩ false s = (line, true, rest) := by
  rw [readline] at h
  split at h
  next line' ok rest' hread =>
    cases ok with
    | false => exact absurd (Prod.mk.inj h).1 (by simp)
    | true =>
        obtain ⟨hline, rfl⟩ := Prod.mk.inj h
        rw [hread, ← Option.some.inj hline]

theorem readline_rest {m : Nat} {hm : 64 < m} {s line rest : Bytes}
    (h : readline hm s = (some line, rest)) : rest.length < s.length := by
  have hrest := readlineLoop_rest ⟨m, [], hm⟩ false s
  rw [readline_eq_some h] at hrest
  exact (hrest.2 rfl).resolve_left (by simp)

/-- What a loop over `f:lines()` is given, of a file that holds `s`. -/
def ioLines {m : Nat} (hm : 64 < m) (s : Bytes) : List Bytes :=
  match _h : readline hm s with
  | (none, _) => []
  | (some line, rest) => line :: ioLines hm rest
termination_by s.length
decreasing_by exact readline_rest _h

/-- The lines of a file: what stands before each newline, and what is left behind the last one. -/
def fileLines : Bytes → List Bytes
  | [] => []
  | c :: s =>
      if c = nl then [] :: fileLines s
      else
        match fileLines s with
        | [] => [[c]]
        | line :: lines => (c :: line) :: lines

theorem fileLines_line {w : Bytes} (hw : nl ∉ w) (t : Bytes) :
    fileLines (w ++ nl :: t) = w :: fileLines t := by
  induction w with
  | nil => rfl
  | cons c w ih =>
      rw [List.mem_cons, not_or] at hw
      rw [List.cons_append, fileLines, if_neg (Ne.symm hw.1), ih hw.2]

theorem fileLines_last {w : Bytes} (hw : nl ∉ w) (hne : w ≠ []) : fileLines w = [w] := by
  induction w with
  | nil => exact absurd rfl hne
  | cons c w ih =>
      rw [List.mem_cons, not_or] at hw
      rw [fileLines, if_neg (Ne.symm hw.1)]
      cases w with
      | nil => rfl
      | cons d w => rw [ih hw.2 (List.cons_ne_nil _ _)]

theorem readline_line {m : Nat} (hm : 64 < m) {w d : Bytes} (hw : nl ∉ w) (h0 : 0 ∉ w)
    (hd : LineEnd d) :
    readline hm (w ++ d) = if w ++ d = [] then (none, []) else (some w, d.tail) := by
  rw [readline, readlineLoop_eq hd List.not_mem_nil hw h0]
  by_cases hnil : w ++ d = []
  · rw [if_pos hnil, if_pos hnil]
    rfl
  · rw [if_neg hnil, if_neg hnil]
    rfl

/-- A file without zero bytes is read line by line. -/
theorem ioLines_eq {m : Nat} (hm : 64 < m) {s : Bytes} (h0 : 0 ∉ s) : ioLines hm s = fileLines s := by
  induction hlen : s.length using Nat.strong_induction_on generalizing s with
  | _ k ih =>
      obtain ⟨w, d, rfl, hw, hd⟩ := exists_line s
      rw [List.mem_append, not_or] at h0
      have hread := readline_line hm hw h0.1 hd
      rw [ioLines]
      split
      · next h =>
          rw [hread] at h
          split at h
          · next hnil => rw [hnil, fileLines]
          · exact absurd (Prod.mk.inj h).1 (by simp)
      · next line rest h =>
          rw [hread] at h
          split at h
          · exact absurd (Prod.mk.inj h).1 (by simp)
          · next hne =>
              obtain ⟨hline, rfl⟩ := Prod.mk.inj h
              obtain rfl := Option.some.inj hline
              rcases hd with rfl | ⟨t, rfl⟩
              · rw [List.append_nil] at hne hlen ⊢
                have hpos := List.length_pos_of_ne_nil hne
                have hrest : ioLines hm [] = [] := ih 0 (by omega) List.not_mem_nil rfl
                rw [fileLines_last hw hne, List.tail_nil, hrest]
              · rw [List.length_append, List.length_cons] at hlen
                rw [fileLines_line hw, List.tail_cons,
                  ih t.length (by omega) (fun h => h0.2 (List.mem_cons_of_mem _ h)) rfl]

theorem zero_not_mem_cstr (s : Bytes) : 0 ∉ cstr s := by
  intro h
  exact absurd (List.mem_takeWhile_imp h) (by decide)

theorem zero_not_mem_readlineLoop (b : LineBuf) (ok : Bool) (s : Bytes) (hb : 0 ∉ b.buf) :
    0 ∉ (readlineLoop b ok s).1 := by
  fun_induction readlineLoop b ok s with
  | case1 => exact hb
  | case2 b ok s piece rest h hlast =>
      intro hmem
      rcases List.mem_append.mp (List.mem_of_mem_dropLast hmem) with hmem | hmem
      · exact hb hmem
      · exact zero_not_mem_cstr piece hmem
  | case3 b ok s piece rest h hlast ih =>
      refine ih ?_
      rw [LineBuf.push_buf, List.mem_append, not_or]
      exact ⟨hb, zero_not_mem_cstr piece⟩

/-- Of a zero byte no line has anything. -/
theorem zero_not_mem_ioLines {m : Nat} (hm : 64 < m) (s : Bytes) : ∀ line ∈ ioLines hm s, 0 ∉ line := by
  fun_induction ioLines hm s with
  | case1 => simp
  | case2 s line rest h ih =>
      have hloop := zero_not_mem_readlineLoop ⟨m, [], hm⟩ false s List.not_mem_nil
      rw [readline_eq_some h] at hloop
      exact List.forall_mem_cons.mpr ⟨hloop, ih⟩

theorem exists_zero_fileLines {s : Bytes} (h : 0 ∈ s) : ∃ line ∈ fileLines s, 0 ∈ line := by
  induction s with
  | nil => exact absurd h List.not_mem_nil
  | cons c s ih =>
      have hnl : (0 : Byte) ≠ nl := by decide
      rw [fileLines]
      split
      · next hc =>
          obtain ⟨line, hline, hzero⟩ := ih ((List.mem_cons.mp h).resolve_left (hc ▸ hnl))
          exact ⟨line, List.mem_cons_of_mem _ hline, hzero⟩
      · rcases List.mem_cons.mp h with rfl | h
        · split
          · exact ⟨[0], List.mem_singleton_self _, List.mem_singleton_self _⟩
          · next line lines _ => exact ⟨0 :: line, List.mem_cons_self, List.mem_cons_self⟩
        · obtain ⟨line, hline, hzero⟩ := ih h
          split
          · next hnil => exact absurd (hnil ▸ hline) List.not_mem_nil
          · next first lines hlines =>
              rw [hlines] at hline
              rcases List.mem_cons.mp hline with rfl | hline
              · exact ⟨c :: line, List.mem_cons_self, List.mem_cons_of_mem c hzero⟩
              · exact ⟨line, List.mem_cons_of_mem _ hline, hzero⟩

/-- A newline is the last byte that is read into the buffer. -/
theorem nl_of_fgets {b : LineBuf} {s piece rest : Bytes}
    (h : fgets (b.m - b.buf.length) s = some (piece, rest)) : nl ∉ (cstr piece).dropLast := by
  have hroom := b.room
  have hsize : 2 ≤ b.m - b.buf.length := by omega
  have hpiece : nl ∉ piece.dropLast := by
    obtain ⟨w, d, rfl, hw, hd⟩ := exists_line s
    by_cases hnil : w ++ d = []
    · rw [hnil] at h
      exact absurd h (by simp [fgets])
    · obtain ⟨t, -, hread⟩ | ⟨u, v, rfl, -, hread⟩ := fgets_line hsize hw hd hnil
      · obtain ⟨rfl, -⟩ := Prod.mk.inj (Option.some.inj (hread.symm.trans h))
        rwa [List.dropLast_concat]
      · obtain ⟨rfl, -⟩ := Prod.mk.inj (Option.some.inj (hread.symm.trans h))
        exact fun hmem => hw (List.mem_append_left v (List.mem_of_mem_dropLast hmem))
  intro hmem
  obtain ⟨t, ht⟩ : cstr piece <+: piece := List.takeWhile_prefix _
  refine hpiece ?_
  rw [← ht]
  cases t with
  | nil => rwa [List.append_nil]
  | cons c t =>
      rw [List.dropLast_append_of_ne_nil (List.cons_ne_nil c t)]
      exact List.mem_append_left _ (List.mem_of_mem_dropLast hmem)

theorem nl_not_mem_readlineLoop (b : LineBuf) (ok : Bool) (s : Bytes) (hb : nl ∉ b.buf) :
    nl ∉ (readlineLoop b ok s).1 := by
  fun_induction readlineLoop b ok s with
  | case1 => exact hb
  | case2 b ok s piece rest h hlast =>
      have hnl := nl_of_fgets h
      have hne : cstr piece ≠ [] := by
        intro hnil
        rw [hnil, List.append_nil] at hlast
        exact hb (List.mem_of_getLast? hlast)
      rw [List.dropLast_append_of_ne_nil hne, List.mem_append, not_or]
      exact ⟨hb, hnl⟩
  | case3 b ok s piece rest h hlast ih =>
      have hnl := nl_of_fgets h
      refine ih ?_
      rw [LineBuf.push_buf, List.mem_append, not_or]
      refine ⟨hb, fun hmem => hlast ?_⟩
      have hne : cstr piece ≠ [] := List.ne_nil_of_mem hmem
      rw [← List.dropLast_append_getLast hne, List.mem_append, List.mem_singleton] at hmem
      rw [List.getLast?_append_of_ne_nil _ hne, List.getLast?_eq_some_getLast hne,
        ← hmem.resolve_left hnl]

/-- No line has a newline in it. -/
theorem nl_not_mem_ioLines {m : Nat} (hm : 64 < m) (s : Bytes) :
    ∀ line ∈ ioLines hm s, nl ∉ line := by
  fun_induction ioLines hm s with
  | case1 => simp
  | case2 s line rest h ih =>
      have hloop := nl_not_mem_readlineLoop ⟨m, [], hm⟩ false s List.not_mem_nil
      rw [readline_eq_some h] at hloop
      exact List.forall_mem_cons.mpr ⟨hloop, ih⟩

/-- **A file is read line by line exactly when there is no zero byte in it**, whatever the size of
the buffer is at first and however long the lines are. -/
theorem ioLines_eq_iff {m : Nat} (hm : 64 < m) (s : Bytes) : ioLines hm s = fileLines s ↔ 0 ∉ s := by
  refine ⟨fun h hzero => ?_, ioLines_eq hm⟩
  obtain ⟨line, hline, hmem⟩ := exists_zero_fileLines hzero
  exact zero_not_mem_ioLines hm s line (h ▸ hline) hmem

/-- Two lines, the second one without its newline. -/
theorem ioLines_two :
    ioLines (show 64 < 8192 by decide) (ascii "! a\nb") = fileLines (ascii "! a\nb") :=
  (ioLines_eq_iff _ _).mpr (by decide)

end Tmg.Lua
