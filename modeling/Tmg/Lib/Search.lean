/-
# `Tmg.Lib.Search` — searching a list for a pattern

Four searches over an arbitrary alphabet, and what each finds.

| | |
| :-- | :-- |
| `firstAt P s` | the first place of `s`, as what is left of `s` there, at which `P` holds |
| `cutAt pat s` | `s` cut at the first occurrence of `pat`: what stands before it and what follows it |
| `occurrences pat s` | the positions of the leftmost non-overlapping occurrences of `pat` in `s` |
| `resetEnds pat s` | what an incremental matcher finds that forgets its whole partial match on a mismatch |

An occurrence of `pat` at position `j` of `s` is `pat <+: s.drop j`.  `cutAt`
is the reading rule of every literal that runs to its first closing mark;
`cutAt_append_iff` says when that mark is the one the writer put there, and `cutAt_lines`
is the case of a mark that stands on a line of its own.
`occurrences` is the reading rule of a delimiter.  The last search is the one before it
exactly when no mismatch forgets the beginning of an occurrence
(`resetEnds_eq_iff`).
-/
import Mathlib.Data.List.Infix
import Mathlib.Tactic.Common
import Tmg.Lib.Run

namespace Tmg.Lib

/-! ## The first place -/

section

variable {α : Type*} {P : List α → Bool}

/-- The first place of `s` at which `P` holds. -/
def firstAt (P : List α → Bool) : List α → Option (List α)
  | [] => if P [] then some [] else none
  | c :: s => if P (c :: s) then some (c :: s) else firstAt P s

theorem firstAt_eq_none {s : List α} : firstAt P s = none ↔ ∀ i ≤ s.length, P (s.drop i) = false := by
  induction s with
  | nil => cases hP : P [] <;> simp [firstAt, hP]
  | cons c s ih =>
      rw [firstAt]
      constructor
      · intro h i hi
        split_ifs at h with hhere
        cases i with
        | zero => simpa using hhere
        | succ i => exact ih.mp h i (by simpa using hi)
      · intro h
        have hhere : P (c :: s) = false := h 0 (by simp)
        rw [if_neg (by simp [hhere])]
        exact ih.mpr fun i hi => h (i + 1) (by simpa using hi)

/-- Places at which `P` does not hold can be passed over. -/
theorem firstAt_drop {n : Nat} {s : List α} (hn : n ≤ s.length)
    (h : ∀ i < n, P (s.drop i) = false) : firstAt P s = firstAt P (s.drop n) := by
  induction n generalizing s with
  | zero => rfl
  | succ n ih =>
      cases s with
      | nil => exact absurd hn (by simp)
      | cons c s =>
          have hhere : P (c :: s) = false := h 0 (by omega)
          rw [firstAt, hhere, if_neg Bool.false_ne_true, List.drop_succ_cons]
          exact ih (by simpa using hn) fun i hi => h (i + 1) (by omega)

theorem firstAt_of_pos {s : List α} (h : P s = true) : firstAt P s = some s := by
  cases s <;> rw [firstAt, if_pos h]

theorem firstAt_eq_some {s t : List α} (h : firstAt P s = some t) : t <:+ s ∧ P t = true := by
  induction s with
  | nil =>
      rw [firstAt] at h
      split_ifs at h with hP
      obtain rfl := Option.some.inj h
      exact ⟨List.suffix_rfl, hP⟩
  | cons c s ih =>
      rw [firstAt] at h
      split_ifs at h with hP
      · obtain rfl := Option.some.inj h
        exact ⟨List.suffix_rfl, hP⟩
      · exact ⟨(ih h).1.trans (List.suffix_cons c s), (ih h).2⟩

/-- A pattern is found if it is somewhere. -/
theorem isSome_firstAt_prefix [DecidableEq α] {pat s : List α} :
    (firstAt (fun t => decide (pat <+: t)) s).isSome = true ↔ pat <:+: s := by
  induction s with
  | nil => cases pat <;> simp [firstAt]
  | cons c s ih =>
      rw [firstAt, List.infix_cons_iff, ← ih]
      by_cases hpre : pat <+: c :: s <;> simp [hpre]

end

variable {α : Type*} [DecidableEq α]

/-! ## The first occurrence -/

/-- Cut `s` at the first occurrence of `pat`. -/
def cutAt (pat : List α) : List α → Option (List α × List α)
  | [] => if pat = [] then some ([], []) else none
  | c :: s =>
      if pat <+: c :: s then some ([], (c :: s).drop pat.length)
      else (cutAt pat s).map fun p => (c :: p.1, p.2)

theorem cutAt_cons {pat : List α} {c : α} {s : List α} (h : ¬ pat <+: c :: s) :
    cutAt pat (c :: s) = (cutAt pat s).map fun p => (c :: p.1, p.2) := by
  rw [cutAt, if_neg h]

/-- The pattern stands between what is cut off and the rest. -/
theorem cutAt_eq_some {pat : List α} {p : List α × List α} :
    ∀ {s : List α}, cutAt pat s = some p → s = p.1 ++ (pat ++ p.2)
  | [], h => by
      rw [cutAt] at h
      split at h
      · next hpat =>
          obtain rfl := Option.some.inj h
          rw [hpat]
          rfl
      · exact absurd h nofun
  | c :: s, h => by
      rw [cutAt] at h
      split at h
      · next hpre =>
          obtain rfl := Option.some.inj h
          obtain ⟨t, ht⟩ := hpre
          rw [← ht, List.drop_left]
          rfl
      · obtain ⟨q, hq, rfl⟩ := Option.map_eq_some_iff.mp h
        exact congrArg (c :: ·) (cutAt_eq_some hq)

/-- What is cut off stands in front. -/
theorem cutAt_front {pat s : List α} {p : List α × List α} (h : cutAt pat s = some p) : p.1 <+: s :=
  ⟨_, (cutAt_eq_some h).symm⟩

/-- No occurrence is before the first one. -/
theorem cutAt_prefix_of_occurrence {pat : List α} (r : List α) {p : List α × List α} :
    ∀ {t : List α}, cutAt pat (t ++ (pat ++ r)) = some p → p.1 <+: t
  | [], h => by
      have hpre : pat <+: pat ++ r := List.prefix_append pat r
      rw [List.nil_append] at h
      cases hs : pat ++ r with
      | nil =>
          rw [hs] at h
          exact (cutAt_front h)
      | cons c s =>
          rw [hs] at h hpre
          rw [cutAt, if_pos hpre] at h
          obtain rfl := Option.some.inj h
          exact List.nil_prefix
  | c :: t, h => by
      rw [List.cons_append, cutAt] at h
      split at h
      · obtain rfl := Option.some.inj h
        exact List.nil_prefix
      · obtain ⟨q, hq, rfl⟩ := Option.map_eq_some_iff.mp h
        exact List.cons_prefix_cons.mpr ⟨rfl, cutAt_prefix_of_occurrence r hq⟩

/-- No occurrence starts in `w`. -/
theorem cutAt_append {pat w : List α} {s : List α}
    (h : ∀ j < w.length, ¬ pat <+: (w ++ s).drop j) :
    cutAt pat (w ++ s) = (cutAt pat s).map fun p => (w ++ p.1, p.2) := by
  induction w with
  | nil => simp
  | cons c w ih =>
      have hhere : ¬ pat <+: c :: (w ++ s) := h 0 (Nat.succ_pos _)
      rw [List.cons_append, cutAt_cons hhere, ih fun j hj => h (j + 1) (Nat.succ_lt_succ hj),
        Option.map_map]
      rfl

/-- The writer's mark after `t` is the first one exactly when no occurrence of
the mark starts inside `t`. -/
theorem cutAt_append_iff {pat : List α} (hpat : pat ≠ []) (r : List α) :
    ∀ t : List α, cutAt pat (t ++ (pat ++ r)) = some (t, r) ↔
      ∀ j < t.length, ¬ pat <+: (t ++ (pat ++ r)).drop j
  | [] => by
      obtain ⟨a, pat', rfl⟩ := List.exists_cons_of_ne_nil hpat
      have hpre : (a :: pat') <+: a :: (pat' ++ r) := List.prefix_append (a :: pat') r
      simp [cutAt, hpre]
  | c :: t => by
      have ih := cutAt_append_iff hpat r t
      rw [List.cons_append, cutAt]
      by_cases h0 : pat <+: c :: (t ++ (pat ++ r))
      · rw [if_pos h0]
        constructor
        · intro h
          simp at h
        · intro h
          exact absurd h0 (h 0 (by simp))
      · rw [if_neg h0]
        constructor
        · intro h j hj
          cases j with
          | zero => exact h0
          | succ j =>
              have htail : cutAt pat (t ++ (pat ++ r)) = some (t, r) := by
                cases hc : cutAt pat (t ++ (pat ++ r)) with
                | none => simp [hc] at h
                | some q => simpa [hc, Prod.ext_iff] using h
              exact ih.mp htail j (by simpa using hj)
        · intro h
          have htail : cutAt pat (t ++ (pat ++ r)) = some (t, r) :=
            ih.mpr fun j hj => h (j + 1) (by simpa using hj)
          simp [htail]

/-! ### A mark without a separator in it -/

section

variable {pat : List α} {c : α}

omit [DecidableEq α] in
/-- What does not hold `c` does not reach across it. -/
theorem prefix_append_cons (hc : c ∉ pat) {a r : List α} (h : pat <+: a ++ c :: r) : pat <+: a := by
  rcases Nat.le_total pat.length a.length with hle | hle
  · exact List.prefix_of_prefix_length_le h (List.prefix_append a _) hle
  · have ha : a <+: pat := List.prefix_of_prefix_length_le (List.prefix_append a _) h hle
    obtain ⟨t, rfl⟩ := ha
    rw [List.prefix_append_right_inj] at h
    cases t with
    | nil => simp
    | cons d t =>
        obtain ⟨rfl, -⟩ := List.cons_prefix_cons.mp h
        exact absurd (List.mem_append_right a List.mem_cons_self) hc

omit [DecidableEq α] in
theorem infix_append_cons (hc : c ∉ pat) {b : List α} :
    ∀ {a : List α}, pat <:+: a ++ c :: b → pat <:+: a ∨ pat <:+: b
  | [], h => by
      rcases List.infix_cons_iff.mp h with hpre | hb
      · exact .inl (prefix_append_cons hc hpre).isInfix
      · exact .inr hb
  | d :: a, h => by
      rcases List.infix_cons_iff.mp h with hpre | ha
      · exact .inl (prefix_append_cons hc hpre).isInfix
      · rcases infix_append_cons hc ha with ha | hb
        · exact .inl (List.infix_cons ha)
        · exact .inr hb

/-- Behind two lines that do not hold the mark, it is the first one. -/
theorem cutAt_lines (hpat : pat ≠ []) (hc : c ∉ pat) {a b : List α} (ha : ¬ pat <:+: a)
    (hb : ¬ pat <:+: b) (r : List α) :
    cutAt pat (a ++ c :: (b ++ c :: (pat ++ r))) = some (a ++ c :: (b ++ [c]), r) := by
  have hsplit : a ++ c :: (b ++ c :: (pat ++ r)) = (a ++ c :: (b ++ [c])) ++ (pat ++ r) := by simp
  rw [hsplit, cutAt_append_iff hpat, ← hsplit]
  intro j hj hpre
  rcases Nat.lt_or_ge a.length j with hlt | hle
  · obtain ⟨i, rfl⟩ : ∃ i, j = a.length + (i + 1) := ⟨j - a.length - 1, by omega⟩
    have hle : i ≤ b.length := by
      simp at hj
      omega
    rw [← List.drop_drop, List.drop_left, List.drop_succ_cons, List.drop_append_of_le_length hle]
      at hpre
    exact hb ((prefix_append_cons hc hpre).isInfix.trans (List.drop_suffix i b).isInfix)
  · rw [List.drop_append_of_le_length hle] at hpre
    exact ha ((prefix_append_cons hc hpre).isInfix.trans (List.drop_suffix j a).isInfix)

end

/-! ## Leftmost non-overlapping occurrences -/

/-- The occurrences found from position `i` on, the next `skip` positions being
covered by the occurrence found last. -/
def occurrencesFrom (pat : List α) : Nat → Nat → List α → List Nat
  | _, _, [] => []
  | skip + 1, i, _ :: s => occurrencesFrom pat skip (i + 1) s
  | 0, i, c :: s =>
      if pat <+: c :: s then i :: occurrencesFrom pat (pat.length - 1) (i + 1) s
      else occurrencesFrom pat 0 (i + 1) s

/-- The positions of the leftmost non-overlapping occurrences of `pat` in `s`:
the first occurrence, then the first one after its end, and so on. -/
def occurrences (pat s : List α) : List Nat := occurrencesFrom pat 0 0 s

theorem occurrencesFrom_skip (pat : List α) (i : Nat) :
    ∀ (m s : List α), occurrencesFrom pat m.length i (m ++ s)
      = occurrencesFrom pat 0 (i + m.length) s
  | [], s => by simp
  | a :: m, s => by
      rw [List.length_cons, List.cons_append, occurrencesFrom, occurrencesFrom_skip pat (i + 1) m s]
      congr 1
      omega

/-- An occurrence at the head is found, and the search resumes after it. -/
theorem occurrencesFrom_match {pat : List α} (hpat : pat ≠ []) (i : Nat) (s : List α) :
    occurrencesFrom pat 0 i (pat ++ s) = i :: occurrencesFrom pat 0 (i + pat.length) s := by
  obtain ⟨a, pat', rfl⟩ := List.exists_cons_of_ne_nil hpat
  have hpre : (a :: pat') <+: a :: (pat' ++ s) := List.prefix_append (a :: pat') s
  rw [List.cons_append, occurrencesFrom, if_pos hpre]
  simp only [List.length_cons, Nat.add_sub_cancel]
  rw [occurrencesFrom_skip]
  congr 2
  omega

/-- A stretch in which no occurrence starts is passed over. -/
theorem occurrencesFrom_pass {pat : List α} (i : Nat) :
    ∀ (m s : List α), (∀ j < m.length, ¬ pat <+: (m ++ s).drop j) →
      occurrencesFrom pat 0 i (m ++ s) = occurrencesFrom pat 0 (i + m.length) s
  | [], s, _ => by simp
  | a :: m, s, h => by
      have h0 : ¬ pat <+: a :: (m ++ s) := by simpa using h 0 (by simp)
      rw [List.cons_append, occurrencesFrom, if_neg h0,
        occurrencesFrom_pass (i + 1) m s fun j hj => by simpa using h (j + 1) (by simpa using hj)]
      congr 1
      simp only [List.length_cons]
      omega

/-- If an occurrence starts within the first `k` positions, the search finds one
that starts no later. -/
theorem exists_mem_occurrencesFrom {pat : List α} :
    ∀ (i k : Nat) (s : List α), k < s.length → pat <+: s.drop k →
      ∃ q ∈ occurrencesFrom pat 0 i s, q ≤ i + k
  | i, _, [], hk, _ => absurd hk (by simp)
  | i, k, c :: s, hk, h => by
      rw [occurrencesFrom]
      by_cases h0 : pat <+: c :: s
      · rw [if_pos h0]
        exact ⟨i, List.mem_cons_self, by omega⟩
      · rw [if_neg h0]
        cases k with
        | zero => exact absurd h h0
        | succ k =>
            obtain ⟨q, hq, hle⟩ := exists_mem_occurrencesFrom (i + 1) k s
              (by simpa using hk) (by simpa using h)
            exact ⟨q, hq, by omega⟩

/-- Fewer inputs than the pattern is long hold no occurrence. -/
theorem occurrencesFrom_short {pat : List α} :
    ∀ (i : Nat) (s : List α), s.length < pat.length → occurrencesFrom pat 0 i s = []
  | _, [], _ => by simp [occurrencesFrom]
  | i, c :: s, h => by
      have h0 : ¬ pat <+: c :: s := fun hp => absurd hp.length_le (by omega)
      rw [occurrencesFrom, if_neg h0]
      exact occurrencesFrom_short (i + 1) s (by simp at h; omega)

/-! ## A matcher without a failure function -/

/-- The partial match after the input `c`: a mismatch leaves nothing of it. -/
def resetStep (pat m : List α) (c : α) : List α :=
  if m ++ [c] = pat then [] else if m ++ [c] <+: pat then m ++ [c] else []

/-- The positions at which the matcher completes the pattern, from position `i` on
with the partial match `m`. -/
def resetEndsFrom (pat : List α) : List α → Nat → List α → List Nat
  | _, _, [] => []
  | m, i, c :: s =>
      if m ++ [c] = pat then i :: resetEndsFrom pat (resetStep pat m c) (i + 1) s
      else resetEndsFrom pat (resetStep pat m c) (i + 1) s

/-- The positions at which the matcher completes the pattern in `s`. -/
def resetEnds (pat s : List α) : List Nat := resetEndsFrom pat [] 0 s

/-- A mismatch at `c` forgets nothing: no occurrence starts in what was held, nor at
the mismatching input. -/
def ForgetsNothing (pat m : List α) (c : α) (rest : List α) : Prop :=
  ¬ m ++ [c] <+: pat → ∀ j ≤ m.length, ¬ pat <+: (m ++ c :: rest).drop j

instance (pat m : List α) (c : α) (rest : List α) : Decidable (ForgetsNothing pat m c rest) :=
  inferInstanceAs (Decidable (_ → _))

/-- A partial match stays a proper prefix of the pattern. -/
theorem resetStep_prefix {pat m : List α} (hpat : pat ≠ []) (c : α) :
    resetStep pat m c <+: pat ∧ resetStep pat m c ≠ pat := by
  unfold resetStep
  split
  · exact ⟨List.nil_prefix, Ne.symm hpat⟩
  · next hne =>
      split
      · next hpre => exact ⟨hpre, hne⟩
      · exact ⟨List.nil_prefix, Ne.symm hpat⟩

/-- The matcher needs the rest of the pattern before it completes it. -/
theorem le_of_mem_resetEndsFrom {pat : List α} (hpat : pat ≠ []) :
    ∀ (s m : List α) (i : Nat), m <+: pat → m ≠ pat →
      ∀ e ∈ resetEndsFrom pat m i s, i + pat.length ≤ e + m.length + 1
  | [], _, _, _, _, e, he => absurd he List.not_mem_nil
  | c :: s, m, i, hm, hne, e, he => by
      have hlt : m.length < pat.length :=
        lt_of_le_of_ne hm.length_le fun h => hne (hm.eq_of_length h)
      have hstep := resetStep_prefix (m := m) hpat c
      have hrest := le_of_mem_resetEndsFrom hpat s (resetStep pat m c) (i + 1) hstep.1 hstep.2 e
      have hgrow : (resetStep pat m c).length ≤ m.length + 1 := by
        unfold resetStep
        split
        · simp
        · split <;> simp
      rw [resetEndsFrom] at he
      split at he
      · next hall =>
          have hlen : pat.length = m.length + 1 := by rw [← hall]; simp
          rcases List.mem_cons.mp he with rfl | he
          · omega
          · have := hrest he
            omega
      · have := hrest he
        omega

/-- In fewer symbols than the pattern has, the matcher finds it only where they begin with
what is missing of its partial match. -/
theorem resetEndsFrom_eq_nil_iff {pat : List α} :
    ∀ {s m : List α} (i : Nat), m <+: pat → m ≠ pat → s.length < pat.length →
      (resetEndsFrom pat m i s = [] ↔ ¬ pat.drop m.length <+: s)
  | [], m, i, hm, hne, _ => by
      obtain ⟨t, rfl⟩ := hm
      have ht : t ≠ [] := fun h => hne (by simp [h])
      simpa [resetEndsFrom] using ht
  | c :: s, m, i, hm, hne, hlt => by
      have hpat : pat ≠ [] := List.ne_nil_of_length_pos (by omega)
      have hlt : s.length < pat.length := by rw [List.length_cons] at hlt; omega
      have hstep := resetStep_prefix (m := m) hpat c
      have ih := resetEndsFrom_eq_nil_iff (s := s) (i + 1) hstep.1 hstep.2 hlt
      obtain ⟨t, rfl⟩ := hm
      rw [resetEndsFrom, List.drop_left]
      by_cases hall : m ++ [c] = m ++ t
      · obtain rfl := List.append_cancel_left hall
        simp
      rw [if_neg hall, ih]
      by_cases hpre : m ++ [c] <+: m ++ t
      · -- the match grows: `c` is the next symbol that is missing
        obtain ⟨u, rfl⟩ := (List.prefix_append_right_inj m).mp hpre
        have hgrow : resetStep (m ++ ([c] ++ u)) m c = m ++ [c] := by
          rw [resetStep, if_neg hall, if_pos hpre]
        rw [hgrow, ← List.append_assoc, List.drop_left, List.singleton_append, List.cons_prefix_cons]
        simp
      · -- the match is forgotten, and too little is left for the whole pattern
        have hreset : resetStep (m ++ t) m c = [] := by rw [resetStep, if_neg hall, if_neg hpre]
        have hshort : ¬ m ++ t <+: s := fun h => absurd h.length_le (by omega)
        have hfirst : ¬ t <+: c :: s := by
          intro h
          cases t with
          | nil => exact hne (List.append_nil m).symm
          | cons a t =>
              obtain rfl := (List.cons_prefix_cons.mp h).1
              exact hpre ⟨t, by simp⟩
        simp [hreset, hshort, hfirst]

/-- An occurrence that began in what is forgotten is not found any more. -/
theorem resetEndsFrom_ne_of_forgotten {pat m s : List α} {c : α} {i j : Nat} (hpat : pat ≠ [])
    (hi : m.length ≤ i) (hj : j ≤ m.length) (hocc : pat <+: (m ++ c :: s).drop j) :
    resetEndsFrom pat [] (i + 1) s
      ≠ (occurrencesFrom pat 0 (i - m.length) (m ++ c :: s)).map (· + (pat.length - 1)) := by
  intro heq
  obtain ⟨q, hq, hle⟩ := exists_mem_occurrencesFrom (i - m.length) j (m ++ c :: s)
    (by simp; omega) hocc
  have hmem : q + (pat.length - 1) ∈ resetEndsFrom pat [] (i + 1) s := by
    rw [heq]
    exact List.mem_map_of_mem hq
  -- behind the mismatch the matcher needs the whole pattern again
  have hneeds := le_of_mem_resetEndsFrom hpat s [] (i + 1) List.nil_prefix (Ne.symm hpat) _ hmem
  have hpos : 0 < pat.length := List.length_pos_iff.mpr hpat
  rw [List.length_nil] at hneeds
  omega

/-- **From any partial match on, the matcher finds the leftmost non-overlapping
occurrences exactly when no mismatch forgets the beginning of one.** -/
theorem resetEndsFrom_eq_iff {pat : List α} (hpat : pat ≠ []) :
    ∀ (s m : List α) (i : Nat), m <+: pat → m ≠ pat → m.length ≤ i →
      (resetEndsFrom pat m i s
          = (occurrencesFrom pat 0 (i - m.length) (m ++ s)).map (· + (pat.length - 1)) ↔
        Always (resetStep pat) (ForgetsNothing pat) m s)
  | [], m, i, hm, hne, _ => by
      have hlt : m.length < pat.length :=
        lt_of_le_of_ne hm.length_le fun h => hne (hm.eq_of_length h)
      rw [List.append_nil, occurrencesFrom_short _ _ hlt]
      simp [resetEndsFrom, Always]
  | c :: s, m, i, hm, hne, hi => by
      have hstep := resetStep_prefix (m := m) hpat c
      have ih := resetEndsFrom_eq_iff hpat s (resetStep pat m c) (i + 1) hstep.1 hstep.2
      rw [resetEndsFrom, Always]
      by_cases hall : m ++ [c] = pat
      · -- the pattern is complete
        have hlen : pat.length = m.length + 1 := by rw [← hall]; simp
        have hreset : resetStep pat m c = [] := if_pos hall
        have hok : ForgetsNothing pat m c s := fun h => absurd (hall ▸ List.prefix_rfl) h
        have hsplit : m ++ c :: s = pat ++ s := by rw [← hall]; simp
        have hfound := occurrencesFrom_match hpat (i - m.length) s
        have hnext : i - m.length + pat.length = i + 1 := by omega
        have hhere : i - m.length + (pat.length - 1) = i := by omega
        rw [if_pos hall, hsplit, hfound, List.map_cons, hhere, hnext]
        rw [hreset] at ih ⊢
        simpa [hok] using ih (Nat.zero_le _)
      · rw [if_neg hall]
        by_cases hpre : m ++ [c] <+: pat
        · -- the partial match grows
          have hgrow : resetStep pat m c = m ++ [c] := by rw [resetStep, if_neg hall, if_pos hpre]
          have hok : ForgetsNothing pat m c s := fun h => absurd hpre h
          have hsplit : m ++ c :: s = m ++ [c] ++ s := by simp
          have hlen : (m ++ [c]).length = m.length + 1 := by simp
          have hback : i + 1 - (m ++ [c]).length = i - m.length := by omega
          rw [hgrow] at ih ⊢
          rw [hback] at ih
          rw [hsplit, ih (by omega)]
          simp [hok]
        · -- the partial match is forgotten
          have hreset : resetStep pat m c = [] := by rw [resetStep, if_neg hall, if_neg hpre]
          rw [hreset] at ih ⊢
          have ih := ih (Nat.zero_le _)
          rw [List.length_nil, Nat.sub_zero, List.nil_append] at ih
          by_cases hok : ForgetsNothing pat m c s
          · have hpass := occurrencesFrom_pass (i - m.length) (m ++ [c]) s (by
              intro j hj
              have hsplit : m ++ [c] ++ s = m ++ c :: s := by simp
              rw [hsplit]
              refine hok hpre j ?_
              rw [List.length_append, List.length_singleton] at hj
              omega)
            have hsplit : m ++ c :: s = m ++ [c] ++ s := by simp
            have hlen : (m ++ [c]).length = m.length + 1 := by simp
            have hnext : i - m.length + (m ++ [c]).length = i + 1 := by omega
            rw [hsplit, hpass, hnext, ih]
            simp [hok]
          · refine iff_of_false ?_ fun h => hok h.1
            simp only [ForgetsNothing, not_forall, not_not] at hok
            obtain ⟨-, j, hj, hocc⟩ := hok
            exact resetEndsFrom_ne_of_forgotten hpat hi hj hocc

theorem resetEnds_eq_iff {pat : List α} (hpat : pat ≠ []) (s : List α) :
    resetEnds pat s = (occurrences pat s).map (· + (pat.length - 1)) ↔
      Always (resetStep pat) (ForgetsNothing pat) [] s := by
  have h := resetEndsFrom_eq_iff hpat s [] 0 List.nil_prefix (Ne.symm hpat) (Nat.le_refl 0)
  simpa [resetEnds, occurrences] using h

end Tmg.Lib
