/-
# `Tmg.Order` — what the chunk keeps of the template, and in which order

The bytes of the template that reach the chunk should be a subsequence of the
template, and the bytes left out should be those of the delimiters, the backslashes
that escape one, and the backslash-newline pairs of the text (`OrderPreserved`).

The scanner keeps to that as long as it does not read an escaped byte while a match
is pending, and the escaped byte, when it begins like the delimiter, begins the whole
delimiter (`EscapesOk`).  The escape branch looks at `sep[0]` only and passes its
bytes on without a look at `match_buf`, so in both cases something goes wrong:

    delimiter @@, template @\x    chunk \x@     the match is passed on after the escape
    delimiter @@, template \@x    chunk @x      the backslash escapes nothing and is lost

`orderPreserved_iff` says that nothing else does.
-/
import Tmg.Provenance

namespace Tmg

open Lib

/-! ## The property -/

/-- A template byte. -/
def Cell.isSrc : Cell → Bool
  | .gen _ => false
  | .src _ _ => true

/-- The template, byte by byte. -/
def cellsOf (tpl : Bytes) : List Cell := tpl.mapIdx Cell.src

/-- Position `i` is a backslash that escapes a delimiter. -/
def EscapesDelimiter (sep : CString) (tpl : Bytes) (i : Nat) : Prop :=
  ∃ p r, tpl = p ++ bsl :: r ∧ (scan sep p).escapeNext = false ∧ i = p.length ∧ sep.bytes <+: r

/-- The order of the template is kept, and nothing but delimiters, their escapes and
backslash-newline pairs is left out. -/
structure OrderPreserved (sep : CString) (tpl : Bytes) : Prop where
  subsequence : ((chunkCells sep tpl).filter Cell.isSrc).Sublist (cellsOf tpl)
  leftOut : ∀ i < tpl.length, i ∉ posOf (chunkCells sep tpl) →
    InDelimiter sep tpl i ∨ EscapesDelimiter sep tpl i ∨ InJoin sep tpl i
  heldLast : ∀ p, p <+: tpl → ∀ j ∈ (trace sep p).emitted, ∀ i ∈ (trace sep p).held, j < i

/-! ## The condition -/

/-- An escaped byte that is passed on finds no match pending and, where its backslash
is dropped, begins the whole delimiter. -/
def EscapeOk (sep : CString) (st : Scan) (c : Byte) (rest : Bytes) : Prop :=
  st.escapeNext = true → ¬ (st.code = false ∧ c = nl) →
    st.matchBuf = [] ∧ (suppressesDelim sep c = true → sep.bytes <+: c :: rest)

/-- At end of file, the same of a backslash that is still pending. -/
def EndOk (st : Scan) : Prop := st.escapeNext = true → st.matchBuf = []

/-- Every step of the scan of `tpl`, and its end, meets the condition. -/
def EscapesOk (sep : CString) (tpl : Bytes) : Prop :=
  Always (scanByte sep) (EscapeOk sep) Scan.init tpl ∧ EndOk (scan sep tpl)

instance (sep : CString) (st : Scan) (c : Byte) (rest : Bytes) :
    Decidable (EscapeOk sep st c rest) :=
  inferInstanceAs (Decidable (_ → _))

instance (st : Scan) : Decidable (EndOk st) := inferInstanceAs (Decidable (_ → _))

instance (sep : CString) (tpl : Bytes) : Decidable (EscapesOk sep tpl) :=
  inferInstanceAs (Decidable (_ ∧ _))

/-! ## Positions -/

section

variable {sep : CString} {p : Bytes}

theorem posOf_escaped {code : Bool} {c : Byte} {i j : Nat}
    (h : j ∈ posOf (Traced.escaped sep code i c)) : j = i ∨ j = i - 1 := by
  unfold Traced.escaped at h
  split at h
  · exact absurd h List.not_mem_nil
  · split at h <;> simp [posOf, Cell.pos?] at h <;> omega

/-- An escaped byte that is passed on comes last. -/
theorem mem_posOf_escaped {code : Bool} {c : Byte} (i : Nat) (h : ¬ (code = false ∧ c = nl)) :
    i ∈ posOf (Traced.escaped sep code i c) := by
  unfold Traced.escaped
  rw [if_neg h]
  split <;> simp [posOf, Cell.pos?]

/-- Emitted and held positions were read. -/
theorem lt_of_mem (sep : CString) (p : Bytes) :
    ∀ i, i ∈ (trace sep p).emitted ∨ i ∈ (trace sep p).held → i < p.length := by
  induction p using List.reverseRecOn with
  | nil =>
      intro i h
      simp [trace, Traced.init, Traced.emitted, Traced.held] at h
  | append_singleton p c ih =>
      intro i
      have hlen : (p ++ [c]).length = p.length + 1 := by simp
      have hpos := trace_pos sep p
      have hmoves := moves_concat sep p c
      generalize (trace sep (p ++ [c])).escapeNext = f at hmoves
      generalize (trace sep (p ++ [c])).emitted = em at hmoves ⊢
      generalize (trace sep (p ++ [c])).held = he at hmoves ⊢
      rw [hlen]
      have hold : i ∈ (trace sep p).emitted ∨ i ∈ (trace sep p).held → i < p.length + 1 :=
        fun h => Nat.lt_succ_of_lt (ih i h)
      cases hmoves with
      | escaped hesc =>
          rintro (h | h)
          · rcases List.mem_append.mp h with h | h
            · exact hold (Or.inl h)
            · have := posOf_escaped h
              omega
          · exact hold (Or.inr h)
      | waiting _ _ => exact hold
      | toggled _ => exact fun h => hold (Or.inl (h.resolve_right List.not_mem_nil))
      | matched _ _ =>
          simp only [List.mem_append, List.mem_singleton]
          rintro (h | h | h)
          · exact hold (Or.inl h)
          · exact hold (Or.inr h)
          · omega
      | failed _ _ =>
          simp only [List.mem_append, List.mem_singleton, List.not_mem_nil, or_false]
          rintro (h | h | h)
          · exact hold (Or.inl h)
          · exact hold (Or.inr h)
          · omega

/-- A pending backslash moved nothing. -/
theorem pending_trace (h : (trace sep p).escapeNext = true) :
    ∃ q, p = q ++ [bsl] ∧ (scan sep q).escapeNext = false ∧
      (scan sep q).code = (scan sep p).code ∧ (trace sep p).emitted = (trace sep q).emitted ∧
      (trace sep p).held = (trace sep q).held := by
  obtain ⟨q, rfl, hesc, hcode, -⟩ := pending ((trace_escapeNext sep p).symm.trans h)
  have hmoves := moves_concat sep q bsl
  rw [h] at hmoves
  refine ⟨q, rfl, hesc, hcode, ?_⟩
  generalize (trace sep (q ++ [bsl])).emitted = em at hmoves ⊢
  generalize (trace sep (q ++ [bsl])).held = he at hmoves ⊢
  cases hmoves
  exact ⟨rfl, rfl⟩

/-- A pending backslash is past every emitted and every held position. -/
theorem lt_of_mem_pending (h : (trace sep p).escapeNext = true) {i : Nat}
    (hi : i ∈ (trace sep p).emitted ∨ i ∈ (trace sep p).held) : i + 1 < p.length := by
  obtain ⟨q, rfl, -, -, hem, hhe⟩ := pending_trace h
  rw [hem, hhe] at hi
  have := lt_of_mem sep q i hi
  simp
  omega

/-- What was passed over does not come back: a position that is neither emitted nor
held nor pending stays out. -/
theorem stays_out {i : Nat} (hi : i < p.length) (hem : i ∉ (trace sep p).emitted)
    (hhe : i ∉ (trace sep p).held) (hesc : (trace sep p).escapeNext = true → i + 1 ≠ p.length) :
    ∀ r, i ∉ (trace sep (p ++ r)).emitted ∧ i ∉ (trace sep (p ++ r)).held ∧
      ((trace sep (p ++ r)).escapeNext = true → i + 1 ≠ (p ++ r).length) := by
  intro r
  induction r using List.reverseRecOn with
  | nil =>
      rw [List.append_nil]
      exact ⟨hem, hhe, hesc⟩
  | append_singleton r c ih =>
      obtain ⟨ihem, ihhe, ihesc⟩ := ih
      rw [← List.append_assoc]
      have hlen : (p ++ r ++ [c]).length = (p ++ r).length + 1 := by rw [List.length_append]; rfl
      have hlt : i < (p ++ r).length := by rw [List.length_append]; omega
      have hpos := trace_pos sep (p ++ r)
      have hmoves := moves_concat sep (p ++ r) c
      generalize (trace sep (p ++ r ++ [c])).escapeNext = f at hmoves ⊢
      generalize (trace sep (p ++ r ++ [c])).emitted = em at hmoves ⊢
      generalize (trace sep (p ++ r ++ [c])).held = he at hmoves ⊢
      refine ⟨?_, ?_, fun _ => by omega⟩
      · cases hmoves with
        | escaped h =>
            intro hin
            rcases List.mem_append.mp hin with hin | hin
            · exact ihem hin
            · have h1 := ihesc h
              have h2 := posOf_escaped hin
              omega
        | waiting _ _ => exact ihem
        | toggled _ => exact ihem
        | matched _ _ => exact ihem
        | failed _ _ =>
            simp only [List.mem_append, List.mem_singleton, not_or]
            exact ⟨ihem, ihhe, by omega⟩
      · cases hmoves with
        | escaped _ => exact ihhe
        | waiting _ _ => exact ihhe
        | toggled _ => exact List.not_mem_nil
        | matched _ _ =>
            simp only [List.mem_append, List.mem_singleton, not_or]
            exact ⟨ihhe, by omega⟩
        | failed _ _ => exact List.not_mem_nil

theorem held_eq_nil_iff : (trace sep p).held = [] ↔ (scan sep p).matchBuf = [] := by
  rw [← trace_matchBuf, bytesOf_eq_nil]
  constructor
  · intro h
    refine List.eq_nil_iff_forall_not_mem.mpr ?_
    intro x hx
    obtain ⟨i, b, rfl⟩ := trace_matchBuf_src sep p hx
    exact absurd (List.filterMap_eq_nil_iff.mp h _ hx) (by simp [Cell.pos?])
  · intro h
    rw [Traced.held, h]
    rfl

end

/-! ## Subsequences by position -/

@[simp] theorem posOf_filter (cs : List Cell) : posOf (cs.filter Cell.isSrc) = posOf cs := by
  induction cs with
  | nil => rfl
  | cons x cs ih =>
      cases x with
      | gen _ => exact ih
      | src i _ => exact congrArg (i :: ·) ih

theorem posOf_cellsOf (tpl : Bytes) : posOf (cellsOf tpl) = List.range tpl.length := by
  induction tpl using List.reverseRecOn with
  | nil => rfl
  | append_singleton tpl c ih =>
      rw [cellsOf, List.mapIdx_concat, posOf_append, posOf_src]
      rw [cellsOf] at ih
      rw [ih, List.length_append, List.length_singleton, List.range_succ]

/-- `a` is a template byte that stands before the template byte `b`. -/
def Cell.Before (a b : Cell) : Prop := ∃ i ∈ a.pos?, ∃ j ∈ b.pos?, i < j

instance : Std.Antisymm Cell.Before where
  antisymm := by
    rintro a b ⟨i, hi, j, hj, hij⟩ ⟨j', hj', i', hi', hji⟩
    obtain rfl := Option.mem_unique hi hi'
    obtain rfl := Option.mem_unique hj hj'
    omega

theorem Cell.Before.ne {a b : Cell} (h : Cell.Before a b) : a ≠ b := by
  rintro rfl
  obtain ⟨i, hi, j, hj, hij⟩ := h
  obtain rfl := Option.mem_unique hi hj
  omega

/-- Template bytes in the order of their positions. -/
theorem pairwise_before {cs : List Cell} (hsrc : ∀ x ∈ cs, x.isSrc = true)
    (h : (posOf cs).Pairwise (· < ·)) : cs.Pairwise Cell.Before := by
  rw [posOf, List.pairwise_filterMap] at h
  refine h.imp_of_mem ?_
  intro a b ha hb hab
  cases a with
  | gen _ => exact absurd (hsrc _ ha) (by simp [Cell.isSrc])
  | src i _ =>
      cases b with
      | gen _ => exact absurd (hsrc _ hb) (by simp [Cell.isSrc])
      | src j _ => exact ⟨i, rfl, j, rfl, hab i rfl j rfl⟩

/-- Cells that carry the template's bytes form a subsequence of the template exactly
when their positions increase. -/
theorem subsequence_iff {tpl : Bytes} {cs : List Cell}
    (hcs : ∀ i b, Cell.src i b ∈ cs → tpl[i]? = some b) :
    (cs.filter Cell.isSrc).Sublist (cellsOf tpl) ↔ (posOf cs).Pairwise (· < ·) := by
  constructor
  · intro h
    have hpos := h.filterMap Cell.pos?
    change (posOf (cs.filter Cell.isSrc)).Sublist (posOf (cellsOf tpl)) at hpos
    rw [posOf_filter, posOf_cellsOf] at hpos
    exact List.pairwise_lt_range.sublist hpos
  · intro h
    have hleft : (cs.filter Cell.isSrc).Pairwise Cell.Before :=
      pairwise_before (fun x hx => (List.mem_filter.mp hx).2) (by rwa [posOf_filter])
    have hright : (cellsOf tpl).Pairwise Cell.Before := by
      refine pairwise_before ?_ ?_
      · intro x hx
        obtain ⟨i, hi, rfl⟩ := List.mem_mapIdx.mp hx
        rfl
      · rw [posOf_cellsOf]
        exact List.pairwise_lt_range
    refine List.sublist_of_subperm_of_pairwise ?_ hleft hright
    refine List.subperm_of_subset (hleft.imp fun hab => hab.ne) ?_
    intro x hx
    obtain ⟨hmem, hsrc⟩ := List.mem_filter.mp hx
    cases x with
    | gen _ => exact absurd hsrc (by simp [Cell.isSrc])
    | src i b =>
        obtain ⟨hi, hb⟩ := List.getElem?_eq_some_iff.mp (hcs i b hmem)
        exact List.mem_mapIdx.mpr ⟨i, hi, by rw [hb]⟩

/-! ## Order -/

/-- The positions of a state, in order, what is held after what is emitted. -/
def InOrder (sep : CString) (p : Bytes) : Prop :=
  ((trace sep p).emitted ++ (trace sep p).held).Pairwise (· < ·)

/-- An escaped byte that meets the condition leaves the positions in order. -/
theorem inOrder_escaped {sep : CString} {p : Bytes} {c : Byte} (h : InOrder sep p)
    (hesc : (trace sep p).escapeNext = true)
    (hok : ¬ ((scan sep p).code = false ∧ c = nl) → (scan sep p).matchBuf = []) :
    ((trace sep p).emitted ++ posOf (Traced.escaped sep (trace sep p).code (trace sep p).pos c)
      ++ (trace sep p).held).Pairwise (· < ·) := by
  rw [trace_code, trace_pos]
  by_cases hjoin : (scan sep p).code = false ∧ c = nl
  · have hnil : Traced.escaped sep (scan sep p).code p.length c = [] := if_pos hjoin
    rw [hnil, posOf_nil, List.append_nil]
    exact h
  · have hheld := held_eq_nil_iff.mpr (hok hjoin)
    have hpast : ∀ j ∈ (trace sep p).emitted, j + 1 < p.length :=
      fun j hj => lt_of_mem_pending hesc (Or.inl hj)
    have hpair : (posOf (Traced.escaped sep (scan sep p).code p.length c)).Pairwise (· < ·) := by
      have hpos : 0 < p.length := by
        obtain ⟨q, rfl, -⟩ := pending_trace hesc
        simp
      rw [Traced.escaped, if_neg hjoin]
      split
      · simp [posOf, Cell.pos?]
      · simp [posOf, Cell.pos?]
        omega
    rw [InOrder, hheld, List.append_nil] at h
    rw [hheld, List.append_nil]
    refine List.pairwise_append.mpr ⟨h, hpair, ?_⟩
    intro j hj i hi
    have h1 := hpast j hj
    have h2 := posOf_escaped hi
    omega

/-- The step lemma. -/
theorem inOrder_concat {sep : CString} {p : Bytes} {c : Byte} {r : Bytes} (h : InOrder sep p)
    (hok : EscapeOk sep (scan sep p) c r) : InOrder sep (p ++ [c]) := by
  have hmoves := moves_concat sep p c
  have hpos := trace_pos sep p
  unfold InOrder
  generalize (trace sep (p ++ [c])).escapeNext = f at hmoves
  generalize (trace sep (p ++ [c])).emitted = em at hmoves ⊢
  generalize (trace sep (p ++ [c])).held = he at hmoves ⊢
  -- the byte itself, put behind everything
  have hlast : ((trace sep p).emitted ++ (trace sep p).held ++ [(trace sep p).pos]).Pairwise
      (· < ·) := by
    refine List.pairwise_append.mpr ⟨h, List.pairwise_singleton _ _, ?_⟩
    intro j hj i hi
    rw [List.mem_singleton.mp hi, hpos]
    exact lt_of_mem sep p j (List.mem_append.mp hj)
  cases hmoves with
  | escaped hesc =>
      exact inOrder_escaped h hesc fun hjoin =>
        (hok ((trace_escapeNext sep p).symm.trans hesc) hjoin).1
  | waiting _ _ => exact h
  | toggled _ => simpa using (List.pairwise_append.mp h).1
  | matched _ _ => simpa using hlast
  | failed _ _ => simpa using hlast

/-- The run lemma. -/
theorem inOrder_of_always {sep : CString} {tpl : Bytes}
    (hok : Always (scanByte sep) (EscapeOk sep) Scan.init tpl) :
    ∀ p, p <+: tpl → InOrder sep p := by
  have hcut := always_iff.mp hok
  intro p
  induction p using List.reverseRecOn with
  | nil => intro _; exact List.Pairwise.nil
  | append_singleton p c ih =>
      rintro ⟨r, rfl⟩
      have hsplit : p ++ [c] ++ r = p ++ c :: r := by simp
      refine inOrder_concat (ih ⟨c :: r, hsplit.symm⟩) (hcut p c r hsplit)

/-- At end of file a pending backslash goes before what is held, so nothing may be. -/
theorem chunk_inOrder_iff {sep : CString} {tpl : Bytes} (h : InOrder sep tpl) :
    (posOf (chunkCells sep tpl)).Pairwise (· < ·) ↔ EndOk (scan sep tpl) := by
  rw [posOf_chunkCells, EndOk]
  by_cases hesc : (trace sep tpl).escapeNext = true
  · have hscan : (scan sep tpl).escapeNext = true := (trace_escapeNext sep tpl).symm.trans hesc
    rw [if_pos hesc]
    constructor
    · intro hpair _
      by_contra hne
      obtain ⟨i, hi⟩ := List.exists_mem_of_ne_nil _ (held_eq_nil_iff.not.mpr hne)
      have h1 := lt_of_mem_pending hesc (Or.inr hi)
      have h2 := (List.pairwise_append.mp (List.pairwise_append.mp hpair).2.1).2.2
        (tpl.length - 1) (List.mem_singleton.mpr rfl) i hi
      omega
    · intro hend
      have hheld := held_eq_nil_iff.mpr (hend hscan)
      rw [InOrder, hheld, List.append_nil] at h
      rw [hheld, List.append_nil]
      refine List.pairwise_append.mpr ⟨h, List.pairwise_singleton _ _, ?_⟩
      intro j hj i hi
      have h1 := lt_of_mem_pending hesc (Or.inl hj)
      have h2 := List.mem_singleton.mp hi
      omega
  · have hscan : (scan sep tpl).escapeNext ≠ true := fun h => hesc ((trace_escapeNext sep tpl).trans h)
    rw [if_neg hesc, List.nil_append]
    exact ⟨fun _ h => absurd h hscan, fun _ => h⟩

/-! ## Backslashes -/

section

variable {sep : CString} {p : Bytes}

/-- A backslash that is not itself escaped is pending after it was read. -/
theorem scan_bsl (h : (scan sep p).escapeNext = false) :
    (scan sep (p ++ [bsl])).escapeNext = true ∧
      (scan sep (p ++ [bsl])).code = (scan sep p).code := by
  have hcore := core_scan_concat sep p bsl
  have hesc : (scan sep p).core.escapeNext = false := h
  rw [Core.step, hesc] at hcore
  exact ⟨congrArg Core.escapeNext hcore, congrArg Core.code hcore⟩

/-- What an escaped byte adds to the emitted positions. -/
theorem trace_escaped (h : (trace sep p).escapeNext = true) (c : Byte) :
    (trace sep (p ++ [c])).escapeNext = false ∧
      (trace sep (p ++ [c])).emitted = (trace sep p).emitted
        ++ posOf (Traced.escaped sep (scan sep p).code p.length c) ∧
      (trace sep (p ++ [c])).held = (trace sep p).held := by
  have hmoves := moves_concat sep p c
  rw [← trace_code, ← trace_pos sep p]
  generalize (trace sep (p ++ [c])).escapeNext = f at hmoves ⊢
  generalize (trace sep (p ++ [c])).emitted = em at hmoves ⊢
  generalize (trace sep (p ++ [c])).held = he at hmoves ⊢
  cases hmoves with
  | escaped _ => exact ⟨rfl, rfl, rfl⟩
  | waiting hesc _ => exact absurd (hesc.symm.trans h) (by decide)
  | toggled hc => exact absurd (hc.1.symm.trans h) (by decide)
  | matched hesc _ => exact absurd (hesc.symm.trans h) (by decide)
  | failed hesc _ => exact absurd (hesc.symm.trans h) (by decide)

/-- A backslash that suppresses is not in the chunk. -/
theorem Suppressed.not_mem {tpl : Bytes} {i : Nat} (h : Suppressed sep tpl i) :
    i ∉ posOf (chunkCells sep tpl) := by
  obtain ⟨p, c, r, rfl, hesc, rfl, hmode, hsup⟩ := h
  obtain ⟨hpend, hcode⟩ := scan_bsl hesc
  have hpend : (trace sep (p ++ [bsl])).escapeNext = true := (trace_escapeNext _ _).trans hpend
  obtain ⟨hf, hem, hhe⟩ := trace_escaped hpend c
  have hlen : (p ++ [bsl]).length = p.length + 1 := by simp
  have hsplit : p ++ bsl :: c :: r = p ++ [bsl] ++ [c] ++ r := by simp
  have hpos : posOf (Traced.escaped sep (scan sep (p ++ [bsl])).code (p ++ [bsl]).length c)
      = [p.length + 1] := by
    rw [hcode, hlen, Traced.escaped, if_neg hmode, if_pos hsup]
    rfl
  have hout : p.length ∉ (trace sep (p ++ [bsl] ++ [c])).emitted := by
    rw [hem, hpos]
    intro hin
    rcases List.mem_append.mp hin with hin | hin
    · have := lt_of_mem_pending hpend (Or.inl hin)
      omega
    · have := List.mem_singleton.mp hin
      omega
  have hout' : p.length ∉ (trace sep (p ++ [bsl] ++ [c])).held := by
    rw [hhe]
    intro hin
    have := lt_of_mem_pending hpend (Or.inr hin)
    omega
  obtain ⟨h1, h2, h3⟩ := stays_out (r := r) (by simp) hout hout'
    (fun h => absurd (hf.symm.trans h) (by decide))
  rw [hsplit, posOf_chunkCells]
  simp only [List.mem_append, not_or]
  refine ⟨h1, ?_, h2⟩
  split
  · next hesc' =>
      have hne := h3 hesc'
      have hpos : 0 < (p ++ [bsl] ++ [c] ++ r).length := List.length_pos_iff.mpr (by simp)
      intro hin
      have := List.mem_singleton.mp hin
      omega
  · exact List.not_mem_nil

/-- No byte of a recognised delimiter is a backslash. -/
theorem InDelimiter.ne_bsl {tpl : Bytes} {i : Nat} (h : InDelimiter sep tpl i) :
    tpl[i]? ≠ some bsl := by
  obtain ⟨p, c, r, rfl, ⟨-, hc, -⟩, hi | rfl⟩ := h
  · obtain ⟨x, hx, hxi⟩ := List.mem_filterMap.mp hi
    obtain ⟨j, b, rfl⟩ := trace_matchBuf_src sep p hx
    obtain rfl : j = i := Option.some.inj hxi
    have hb := trace_faithful sep p (i := j) (b := b)
      (List.mem_append_right _ (List.mem_append_right _ hx))
    have hmem : b ∈ (scan sep p).matchBuf := by
      rw [← trace_matchBuf]
      exact List.mem_map_of_mem hx
    rw [List.getElem?_append_left (List.getElem?_eq_some_iff.mp hb).1, hb]
    rintro ⟨⟩
    exact (scan_inv sep p).noEscape hmem
  · simpa using hc

end

/-! ## The main result -/

/-- Where the order is kept, an escaped byte that is passed on finds no match pending. -/
theorem OrderPreserved.matchBuf_eq_nil {sep : CString} {p : Bytes} {c : Byte} {r : Bytes}
    (h : OrderPreserved sep (p ++ c :: r)) (hesc : (scan sep p).escapeNext = true)
    (hmode : ¬ ((scan sep p).code = false ∧ c = nl)) : (scan sep p).matchBuf = [] := by
  by_contra hne
  obtain ⟨i, hi⟩ := List.exists_mem_of_ne_nil _ (held_eq_nil_iff.not.mpr hne)
  obtain ⟨-, hem, hhe⟩ := trace_escaped ((trace_escapeNext sep p).trans hesc) c
  have hlast : p.length < i := by
    refine h.heldLast (p ++ [c]) ⟨r, by simp⟩ p.length ?_ i (by rw [hhe]; exact hi)
    rw [hem]
    exact List.mem_append_right _ (mem_posOf_escaped p.length hmode)
  have := lt_of_mem sep p i (Or.inr hi)
  omega

/-- Where nothing else is left out, a backslash that is dropped escapes a delimiter. -/
theorem OrderPreserved.delimiter_follows {sep : CString} {p : Bytes} {c : Byte} {r : Bytes}
    (h : OrderPreserved sep (p ++ bsl :: c :: r)) (hesc : (scan sep p).escapeNext = false)
    (hmode : ¬ ((scan sep p).code = false ∧ c = nl)) (hsup : suppressesDelim sep c = true) :
    sep.bytes <+: c :: r := by
  have hsuppressed : Suppressed sep (p ++ bsl :: c :: r) p.length :=
    ⟨p, c, r, rfl, hesc, rfl, hmode, hsup⟩
  have hbyte : (p ++ bsl :: c :: r)[p.length]? = some bsl := by simp
  rcases h.leftOut p.length (by simp) hsuppressed.not_mem with hdelim | hescape | hjoin
  · exact absurd hbyte hdelim.ne_bsl
  · obtain ⟨q, s, heq, -, hlen, hpre⟩ := hescape
    obtain ⟨-, htail⟩ := List.append_inj heq hlen
    rw [List.cons.inj htail |>.2]
    exact hpre
  · obtain ⟨q, s, heq, -, hcode, hlen | hlen⟩ := hjoin
    · obtain ⟨rfl, htail⟩ := List.append_inj heq hlen
      have hc : c = nl := (List.cons.inj (List.cons.inj htail).2).1
      exact absurd ⟨hcode, hc⟩ hmode
    · rw [heq, hlen] at hbyte
      exact absurd hbyte (by simp)

/-- **The order of the template is kept exactly when every step meets the condition.** -/
theorem orderPreserved_iff (sep : CString) (tpl : Bytes) :
    OrderPreserved sep tpl ↔ EscapesOk sep tpl := by
  constructor
  · intro h
    have hsteps : Always (scanByte sep) (EscapeOk sep) Scan.init tpl := by
      refine always_iff.mpr ?_
      rintro p c r rfl hesc hmode
      refine ⟨h.matchBuf_eq_nil hesc hmode, ?_⟩
      obtain ⟨q, rfl, hq, hcode, -⟩ := pending hesc
      rw [List.append_assoc, List.singleton_append] at h
      change ¬ ((scan sep (q ++ [bsl])).code = false ∧ c = nl) at hmode
      rw [← hcode] at hmode
      exact h.delimiter_follows hq hmode
    refine ⟨hsteps, (chunk_inOrder_iff (inOrder_of_always hsteps tpl List.prefix_rfl)).mp ?_⟩
    exact (subsequence_iff fun i b => chunkCells_faithful sep tpl).mp h.subsequence
  · rintro ⟨hsteps, hend⟩
    have horder := inOrder_of_always hsteps
    refine ⟨?_, ?_, ?_⟩
    · refine (subsequence_iff fun i b => chunkCells_faithful sep tpl).mpr ?_
      exact (chunk_inOrder_iff (horder tpl List.prefix_rfl)).mpr hend
    · intro i hi hout
      rcases left_out hi hout with hdelim | ⟨p, c, r, rfl, hesc, rfl, hmode, hsup⟩ | hjoin
      · exact Or.inl hdelim
      · refine Or.inr (Or.inl ⟨p, c :: r, rfl, hesc, rfl, ?_⟩)
        obtain ⟨hpend, hcode⟩ := scan_bsl hesc
        have hok := always_iff.mp hsteps (p ++ [bsl]) c r (by simp) hpend
        change ¬ ((scan sep (p ++ [bsl])).code = false ∧ c = nl) → _ at hok
        rw [hcode] at hok
        exact (hok hmode).2 hsup
      · exact Or.inr (Or.inr hjoin)
    · intro p hp j hj i hi
      exact (List.pairwise_append.mp (horder p hp)).2.2 j hj i hi

/-- The delimiter of the LaTeX templates. -/
def atAt : CString := ⟨ascii "@@", by decide⟩

/-- In `@\x` the `@` held at position 0 stays behind the two bytes of the escape. -/
theorem order_lost :
    ¬ OrderPreserved atAt (ascii "@\\x") ∧
      chunk atAt (ascii "@\\x") = ascii "tmg.print([[\\x@]])\n" := by
  refine ⟨fun h => ?_, by decide⟩
  exact absurd (h.heldLast (ascii "@\\x") List.prefix_rfl 1 (by decide) 0 (by decide)) (by decide)

end Tmg
