/-
# `Tmg.Lib.Shell` — how a shell reads a command line

A program that hands a string to `sh -c` relies on the way a POSIX shell takes it apart:
token recognition, quoting, and the expansions that a word may be subject to.  The reader
here is a machine with one step for each byte,

| | |
| :-- | :-- |
| `step` | one byte: between tokens, in an operator, in a word, in quotes, after a backslash |
| `read` | the bytes and the end of the text, giving the tokens |
| `fields` | the arguments, where the text is a simple command of words that stand for themselves |

It computes the literal part of the language and nothing else: a text with a parameter or
command substitution in it, or one that ends within quotes, has no reading (`none`).

A token keeps, for each byte that is left of a word, whether it was quoted.  What a word
would still be expanded by is decided on that: a tilde at its beginning, or a pattern to
be matched against file names.

The rest of the module is what later counts rest on: a text can be read in pieces
(`read_append`), the tokens read so far play no part in what follows (`read_after`), a byte
of a word is left out of it or added to it (`inside_takes`), and a step begins, continues or
ends one word at most (`step_cases`).
-/
import Tmg.Lib.Run
import Mathlib.Data.List.Chain

namespace Tmg.Lib.Shell

/-! ## Tokens -/

/-- A byte of a word, and whether it was quoted. -/
structure Mark where
  byte : UInt8
  quoted : Bool
deriving DecidableEq, Repr

/-- A word after quote removal; `bare` if nothing in it was quoted. -/
structure Word where
  marks : List Mark
  bare : Bool
deriving DecidableEq, Repr

namespace Word

/-- The word's bytes. -/
def text (w : Word) : List UInt8 := w.marks.map Mark.byte

/-- A word in which nothing has been read yet. -/
def empty : Word := { marks := [], bare := true }

/-- The word `s`, written without quotes. -/
def unquoted (s : List UInt8) : Word := { marks := s.map fun c => ⟨c, false⟩, bare := true }

/-- The word `s`, every byte of it quoted. -/
def quoted (s : List UInt8) : Word := { marks := s.map fun c => ⟨c, true⟩, bare := false }

/-- A byte added to the word. -/
def add (w : Word) (c : UInt8) (quoted : Bool) : Word :=
  { marks := w.marks ++ [⟨c, quoted⟩], bare := w.bare && !quoted }

@[simp] theorem text_add (w : Word) (c : UInt8) (quoted : Bool) :
    (w.add c quoted).text = w.text ++ [c] := by
  simp [add, text]

@[simp] theorem text_unquoted (s : List UInt8) : (unquoted s).text = s := by
  simp [unquoted, text, Function.comp_def]

@[simp] theorem text_quoted (s : List UInt8) : (quoted s).text = s := by
  simp [quoted, text, Function.comp_def]

end Word

/-- What a command line is cut into.  A number right before `<` or `>` is a token of its
own kind. -/
inductive Token where
  | word (w : Word)
  | ioNumber (digits : List UInt8)
  | op (o : List UInt8)
deriving DecidableEq, Repr

/-- The operators, and the newline. -/
def operators : List (List UInt8) :=
  [[38, 38], [124, 124], [59, 59], [60, 60], [62, 62], [60, 38], [62, 38], [60, 62],
    [60, 60, 45], [62, 124]]

/-- What an unquoted byte is to the shell. -/
inductive Kind where
  | blank
  | newline
  | operator
  | escape
  | single
  | double
  | expand
  | plain
deriving DecidableEq, Repr

/-- Blank and tab; newline; `| & ; < > ( )`; the backslash; the quotes; `$` and the
backquote; any other byte. -/
def kind (c : UInt8) : Kind :=
  if c = 32 ∨ c = 9 then .blank
  else if c = 10 then .newline
  else if c = 124 ∨ c = 38 ∨ c = 59 ∨ c = 60 ∨ c = 62 ∨ c = 40 ∨ c = 41 then .operator
  else if c = 92 then .escape
  else if c = 39 then .single
  else if c = 34 then .double
  else if c = 36 ∨ c = 96 then .expand
  else .plain

/-- A byte that ends a word. -/
def Delim (c : UInt8) : Prop := kind c = .blank ∨ kind c = .newline ∨ kind c = .operator

instance (c : UInt8) : Decidable (Delim c) := inferInstanceAs (Decidable (_ ∨ _))

/-! ## The reader -/

/-- How the next byte of a word stands: outside quotes, after an unquoted backslash, in
single quotes, in double quotes, after a backslash in double quotes. -/
inductive Quote where
  | bare
  | escape
  | single
  | double
  | escDouble
deriving DecidableEq, Repr

/-- A byte of a word that does not end it. -/
def inside : Quote → Word → UInt8 → Option (Quote × Word)
  | .bare, w, c =>
      match kind c with
      | .escape => some (.escape, w)
      | .single => some (.single, { w with bare := false })
      | .double => some (.double, { w with bare := false })
      | .plain => some (.bare, w.add c false)
      | _ => none
  -- a backslash before a newline is a line continuation, and no part of the word
  | .escape, w, c => some (.bare, if c = 10 then w else w.add c true)
  | .single, w, c => if c = 39 then some (.bare, w) else some (.single, w.add c true)
  | .double, w, c =>
      if c = 34 then some (.bare, w)
      else if c = 36 ∨ c = 96 then none
      else if c = 92 then some (.escDouble, w)
      else some (.double, w.add c true)
  -- in double quotes a backslash is one only before these
  | .escDouble, w, c =>
      if c = 34 ∨ c = 36 ∨ c = 96 ∨ c = 92 then some (.double, w.add c true)
      else if c = 10 then some (.double, w)
      else some (.double, (w.add 92 true).add c true)

/-- Where the reader stands. -/
inductive Place where
  | gap
  | op (o : List UInt8)
  | escape
  | word (q : Quote) (w : Word)
  | comment
deriving DecidableEq, Repr

/-- The reader: where it stands, and the tokens before. -/
structure State where
  place : Place
  tokens : List Token
deriving DecidableEq, Repr

/-- The reader in a word, after the tokens `ts`. -/
def State.inWord (ts : List Token) (x : Quote × Word) : State := ⟨.word x.1 x.2, ts⟩

/-- A byte between tokens. -/
def start (ts : List Token) (c : UInt8) : Option State :=
  match kind c with
  | .blank => some ⟨.gap, ts⟩
  | .newline => some ⟨.gap, ts ++ [.op [10]]⟩
  | .operator => some ⟨.op [c], ts⟩
  | .escape => some ⟨.escape, ts⟩
  | _ => if c = 35 then some ⟨.comment, ts⟩ else (inside .bare .empty c).map (State.inWord ts)

/-- The token that the word `w` is, when the byte `c` ends it. -/
def Word.token (w : Word) (c : UInt8) : Token :=
  if (c = 60 ∨ c = 62) ∧ w.bare = true ∧ w.marks ≠ [] ∧ ∀ m ∈ w.marks, 48 ≤ m.byte ∧ m.byte ≤ 57
  then .ioNumber w.text else .word w

/-- One byte. -/
def step (st : State) (c : UInt8) : Option State :=
  match st.place with
  | .gap => start st.tokens c
  | .op o =>
      if o ++ [c] ∈ operators then some { st with place := .op (o ++ [c]) }
      else start (st.tokens ++ [.op o]) c
  | .escape =>
      if c = 10 then some { st with place := .gap }
      else (inside .escape .empty c).map (State.inWord st.tokens)
  | .word q w =>
      if q = .bare ∧ Delim c then start (st.tokens ++ [w.token c]) c
      else (inside q w c).map (State.inWord st.tokens)
  | .comment => if c = 10 then some ⟨.gap, st.tokens ++ [.op [10]]⟩ else some st

/-- The end of the text. -/
def finish (st : State) : Option (List Token) :=
  match st.place with
  | .gap | .comment => some st.tokens
  | .op o => some (st.tokens ++ [.op o])
  | .word .bare w => some (st.tokens ++ [.word w])
  | _ => none

/-- The tokens of a text, read from the state `st` on. -/
def read (st : State) (s : List UInt8) : Option (List Token) := (s.foldlM step st).bind finish

/-- The tokens of a text. -/
def tokens (s : List UInt8) : Option (List Token) := read ⟨.gap, []⟩ s

/-! ## Simple commands of words -/

/-- `[` as the beginning of a bracket expression: closed after at least one byte. -/
def bracketCloses (ms : List Mark) : Bool :=
  let ms := if ms.head? = some ⟨33, false⟩ then ms.tail else ms
  ((ms.takeWhile fun m => m.byte ≠ 47).drop 1).contains ⟨93, false⟩

/-- An unquoted `*`, `?` or bracket expression: a pattern, matched against file names. -/
def isPattern : List Mark → Bool
  | [] => false
  | m :: ms =>
      (!m.quoted && (m.byte = 42 || m.byte = 63 || (m.byte = 91 && bracketCloses ms))) || isPattern ms

/-- A byte of a name. -/
def nameByte (c : UInt8) : Bool :=
  (97 ≤ c && c ≤ 122) || (65 ≤ c && c ≤ 90) || c = 95 || (48 ≤ c && c ≤ 57)

/-- `name=`, unquoted, at the beginning of a word. -/
def isAssignment (ms : List Mark) : Bool :=
  let name := ms.takeWhile fun m => !m.quoted && nameByte m.byte
  !name.isEmpty && !(name.head?.any fun m => 48 ≤ m.byte && m.byte ≤ 57) &&
    (ms.drop name.length).head? == some ⟨61, false⟩

/-- The reserved words, as bytes: `! { } case do done elif else esac fi for if in then
until while`. -/
def reserved : List (List UInt8) :=
  [[33], [123], [125], [99, 97, 115, 101], [100, 111], [100, 111, 110, 101],
    [101, 108, 105, 102], [101, 108, 115, 101], [101, 115, 97, 99], [102, 105],
    [102, 111, 114], [105, 102], [105, 110], [116, 104, 101, 110],
    [117, 110, 116, 105, 108], [119, 104, 105, 108, 101]]

namespace Word

/-- The word stands for itself: no tilde to expand at its beginning, no pattern. -/
def literal (w : Word) : Bool := w.marks.head? != some ⟨126, false⟩ && !isPattern w.marks

/-- The word can name a command: no assignment, no reserved word. -/
def commandName (w : Word) : Bool :=
  !isAssignment w.marks && !(w.bare && reserved.contains w.text)

end Word

/-- The word that a token is. -/
def Token.word? : Token → Option Word
  | .word w => some w
  | _ => none

/-- The arguments of a simple command whose words stand for themselves. -/
def fieldsOf (ts : List Token) : Option (List (List UInt8)) :=
  (ts.mapM Token.word?).bind fun ws =>
    if ws.all Word.literal && ws.head?.all Word.commandName then some (ws.map Word.text) else none

/-- The arguments that a text is read as. -/
def fields (s : List UInt8) : Option (List (List UInt8)) := (tokens s).bind fieldsOf

/-! ## Reading in pieces -/

theorem read_append (st : State) (s t : List UInt8) :
    read st (s ++ t) = (s.foldlM step st).bind fun st' => read st' t := by
  rw [read, List.foldlM_append]
  exact Option.bind_assoc _ _ _

theorem read_cons (st : State) (c : UInt8) (s : List UInt8) :
    read st (c :: s) = (step st c).bind fun st' => read st' s :=
  Option.bind_assoc _ _ _

/-- Tokens put in front of those read so far. -/
def State.after (ts : List Token) (st : State) : State := { st with tokens := ts ++ st.tokens }

theorem inWord_after (ts us : List Token) (x : Option (Quote × Word)) :
    x.map (State.inWord (ts ++ us)) = (x.map (State.inWord us)).map (State.after ts) := by
  cases x <;> rfl

theorem start_after (ts us : List Token) (c : UInt8) :
    start (ts ++ us) c = (start us c).map (State.after ts) := by
  unfold start
  cases kind c with
  | newline => simp [State.after]
  | blank | operator | escape => rfl
  | single | double | expand | plain =>
      by_cases h : c = 35
      · simp only [if_pos h]
        rfl
      · simp only [if_neg h]
        exact inWord_after ts us _

/-- What was read before is not looked at again. -/
theorem step_after (ts : List Token) (st : State) (c : UInt8) :
    step (st.after ts) c = (step st c).map (State.after ts) := by
  obtain ⟨place, us⟩ := st
  have hstate : (⟨place, us⟩ : State).after ts = ⟨place, ts ++ us⟩ := rfl
  rw [hstate]
  cases place with
  | gap => exact start_after ts us c
  | op o =>
      simp only [step, List.append_assoc, start_after]
      split <;> rfl
  | escape =>
      simp only [step]
      split
      · rfl
      · exact inWord_after ts us _
  | word q w =>
      simp only [step, List.append_assoc, start_after]
      split
      · rfl
      · exact inWord_after ts us _
  | comment =>
      simp only [step, List.append_assoc]
      split <;> rfl

theorem foldlM_after (ts : List Token) (s : List UInt8) (st : State) :
    s.foldlM step (st.after ts) = (s.foldlM step st).map (State.after ts) := by
  induction s generalizing st with
  | nil => rfl
  | cons c s ih =>
      rw [List.foldlM_cons, List.foldlM_cons, step_after]
      cases step st c with
      | none => rfl
      | some st' => exact ih st'

theorem read_after (ts : List Token) (st : State) (s : List UInt8) :
    read (st.after ts) s = (read st s).map (ts ++ ·) := by
  rw [read, read, foldlM_after]
  cases s.foldlM step st with
  | none => rfl
  | some st' =>
      obtain ⟨place, us⟩ := st'
      cases place with
      | word q w => cases q <;> simp [finish, State.after]
      | gap | op _ | escape | comment => simp [finish, State.after]

/-! ## What a byte of a word does -/

/-- The byte is left out, added, or added after the backslash before it. -/
inductive Takes (w : Word) (c : UInt8) : Word → Prop
  | out (bare : Bool) : Takes w c { w with bare := bare }
  | added (quoted : Bool) : Takes w c (w.add c quoted)
  | both : Takes w c ((w.add 92 true).add c true)

theorem inside_takes {q q' : Quote} {w w' : Word} {c : UInt8}
    (h : inside q w c = some (q', w')) : Takes w c w' := by
  cases q with
  | bare =>
      simp only [inside] at h
      split at h <;> cases h
      · exact .out w.bare
      · exact .out false
      · exact .out false
      · exact .added false
  | escape =>
      cases h
      split
      · exact .out w.bare
      · exact .added true
  | single =>
      simp only [inside] at h
      split at h <;> cases h
      · exact .out w.bare
      · exact .added true
  | double =>
      simp only [inside] at h
      split_ifs at h <;> cases h
      · exact .out w.bare
      · exact .out w.bare
      · exact .added true
  | escDouble =>
      simp only [inside] at h
      split_ifs at h <;> cases h
      · exact .added true
      · exact .out w.bare
      · exact .both

/-! ## What a step does -/

/-- No word is being read. -/
def Place.Outside (place : Place) : Prop := ∀ q w, place ≠ .word q w

/-- The byte is read outside words, or begins one. -/
inductive Starts (ts : List Token) (c : UInt8) : State → Prop
  | outside {place : Place} {us : List Token} (hplace : place.Outside)
      (hus : ∀ t ∈ us, ∃ o, t = .op o) : Starts ts c ⟨place, ts ++ us⟩
  | word {x : Quote × Word} (hc : ¬ Delim c) (hhash : c ≠ 35)
      (h : inside .bare .empty c = some x) : Starts ts c (.inWord ts x)

theorem start_cases {ts : List Token} {c : UInt8} {st : State} (h : start ts c = some st) :
    Starts ts c st := by
  have hnil : ∀ {place : Place}, place.Outside → Starts ts c ⟨place, ts⟩ := by
    intro place hplace
    have hout : Starts ts c ⟨place, ts ++ []⟩ := .outside hplace (List.forall_mem_nil _)
    rwa [List.append_nil] at hout
  have hword : ¬ Delim c → (if c = 35 then some (⟨.comment, ts⟩ : State)
      else (inside .bare .empty c).map (State.inWord ts)) = some st → Starts ts c st := by
    intro hc h
    split at h
    · cases h
      exact hnil (by simp [Place.Outside])
    · next hhash =>
        obtain ⟨x, hx, rfl⟩ := Option.map_eq_some_iff.mp h
        exact .word hc hhash hx
  unfold start at h
  cases hk : kind c <;> rw [hk] at h
  case newline =>
    cases h
    exact .outside (by simp [Place.Outside]) (by simp)
  case blank | operator | escape =>
    cases h
    exact hnil (by simp [Place.Outside])
  all_goals exact hword (by simp [Delim, hk]) h

/-- The ways a byte can be taken. -/
inductive Steps (c : UInt8) : State → State → Prop
  | stays {place place' : Place} {ts us : List Token} (hplace' : place'.Outside)
      (hus : ∀ t ∈ us, ∃ o, t = .op o) : Steps c ⟨place, ts⟩ ⟨place', ts ++ us⟩
  | starts {place : Place} {ts us : List Token} {st' : State} (hus : ∀ t ∈ us, ∃ o, t = .op o)
      (h : Starts (ts ++ us) c st') : Steps c ⟨place, ts⟩ st'
  | escaped {ts : List Token} {x : Quote × Word} (h : inside .escape .empty c = some x) :
      Steps c ⟨.escape, ts⟩ (.inWord ts x)
  | ends {ts : List Token} {w : Word} {st' : State} (hc : Delim c)
      (h : Starts (ts ++ [w.token c]) c st') : Steps c (.inWord ts (.bare, w)) st'
  | goesOn {ts : List Token} {q : Quote} {w : Word} {x : Quote × Word}
      (h : inside q w c = some x) : Steps c (.inWord ts (q, w)) (.inWord ts x)

theorem step_cases {st st' : State} {c : UInt8} (h : step st c = some st') : Steps c st st' := by
  obtain ⟨place, ts⟩ := st
  have hnil : ∀ {place' : Place}, place'.Outside → Steps c ⟨place, ts⟩ ⟨place', ts⟩ := by
    intro place' hplace'
    have hstays : Steps c ⟨place, ts⟩ ⟨place', ts ++ []⟩ := .stays hplace' (List.forall_mem_nil _)
    rwa [List.append_nil] at hstays
  cases place with
  | gap =>
      have hstart : start (ts ++ []) c = some st' := by rwa [List.append_nil]
      exact .starts (by simp) (start_cases hstart)
  | op o =>
      simp only [step] at h
      split at h
      · cases h
        exact hnil (by simp [Place.Outside])
      · exact .starts (by simp) (start_cases h)
  | escape =>
      simp only [step] at h
      split at h
      · cases h
        exact hnil (by simp [Place.Outside])
      · obtain ⟨x, hx, rfl⟩ := Option.map_eq_some_iff.mp h
        exact .escaped hx
  | word q w =>
      simp only [step] at h
      split at h
      · next hend =>
          obtain ⟨rfl, hc⟩ := hend
          exact .ends hc (start_cases h)
      · obtain ⟨x, hx, rfl⟩ := Option.map_eq_some_iff.mp h
        exact .goesOn hx
  | comment =>
      simp only [step] at h
      split at h <;> cases h
      · exact .stays (by simp [Place.Outside]) (by simp)
      · exact hnil (by simp [Place.Outside])

end Tmg.Lib.Shell
