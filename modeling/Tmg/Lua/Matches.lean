/-
# `Tmg.Lua.Matches` — what a pattern means

`match` interprets the bytes of a pattern while it matches.  Here the pattern is taken apart
first (`Parses`), and its meaning is a list: `matches src items caps s` are all the ways the
items match at `s`, each with its end and its captures, the preferred ones first.  An item
contributes its own ways, in its own order,

    x      one symbol             x?     one symbol, then none
    x*     the longest run first  x-     the shortest run first

and a sequence of items goes through the ways of the first one, then through those of the
rest behind each.

`matchAt_finds` says that the matcher finds the first of this list: backtracking leaves no
way out, and takes none before its turn.  This holds for the patterns that raise no error
(`WellFormed`): those that can be taken apart, close the captures they open, refer to closed
ones only, and have fewer than two hundred items that `match` calls itself behind.
-/
import Tmg.Lua.Pattern

namespace Tmg.Lua

open Lib

/-! ## The items of a pattern -/

/-- How often a single character is repeated. -/
inductive Rep where
  | one
  | opt
  | star
  | plus
  | lazy
deriving DecidableEq, Repr

/-- An item of a pattern; `single` has the bytes `singlematch` looks at. -/
inductive Item where
  | opened
  | position
  | closed
  | balance (b e : Byte)
  | frontier (set : Bytes)
  | back (l : Byte)
  | atEnd
  | single (item : Bytes) (rep : Rep)
deriving DecidableEq, Repr

/-- What the byte behind a single character makes of it. -/
def repeated (item ep : Bytes) : Item × Bytes :=
  if ep.head? = some 63 then (.single item .opt, ep.tail)
  else if ep.head? = some 42 then (.single item .star, ep.tail)
  else if ep.head? = some 43 then (.single item .plus, ep.tail)
  else if ep.head? = some 45 then (.single item .lazy, ep.tail)
  else (.single item .one, ep)

/-- The first item of `c :: p`, and the rest. -/
def nextItem (c : Byte) (p : Bytes) : Except PatError (Item × Bytes) :=
  if c = 40 then (if p.head? = some 41 then .ok (.position, p.tail) else .ok (.opened, p))
  else if c = 41 then .ok (.closed, p)
  else if c = esc ∧ p.head? = some 98 then
    match p.tail with
    | b :: e :: rest => .ok (.balance b e, rest)
    | _ => .error .unbalanced
  else if c = esc ∧ p.head? = some 102 then
    match p.tail with
    | [] => .error .missingSet
    | d :: q =>
        if d ≠ lbr then .error .missingSet
        else (classEnd d q).map fun ep => (.frontier (setOf (upTo (d :: q) ep)), ep)
  else if c = esc ∧ p.head?.any isDigit then .ok (.back (p.headD 0), p.tail)
  else if c = 36 ∧ p = [] then .ok (.atEnd, [])
  else (classEnd c p).map fun ep => repeated (upTo (c :: p) ep) ep

theorem repeated_le (item ep : Bytes) : (repeated item ep).2.length ≤ ep.length := by
  unfold repeated
  split_ifs <;> simp

theorem nextItem_le {c : Byte} {p : Bytes} {item : Item} {rest : Bytes}
    (h : nextItem c p = .ok (item, rest)) : rest.length ≤ p.length := by
  have hmap : ∀ {c : Byte} {p : Bytes} {f : Bytes → Item × Bytes},
      (∀ ep, (f ep).2.length ≤ ep.length) → (classEnd c p).map f = .ok (item, rest) →
      rest.length ≤ p.length := by
    intro c p f hf h
    cases hep : classEnd c p with
    | error e => simp [hep, Except.map] at h
    | ok ep =>
        rw [hep] at h
        have hle := hf ep
        rw [Except.ok.inj h] at hle
        exact hle.trans (classEnd_le hep)
  unfold nextItem at h
  split_ifs at h
  · obtain ⟨rfl, rfl⟩ := Prod.mk.inj (Except.ok.inj h)
    simp
  · obtain ⟨rfl, rfl⟩ := Prod.mk.inj (Except.ok.inj h)
    exact le_rfl
  · obtain ⟨rfl, rfl⟩ := Prod.mk.inj (Except.ok.inj h)
    exact le_rfl
  · split at h
    · next hp =>
        obtain ⟨rfl, rfl⟩ := Prod.mk.inj (Except.ok.inj h)
        have hlen := congrArg List.length hp
        simp only [List.length_cons, List.length_tail] at hlen
        omega
    · exact absurd h (by simp)
  · split at h
    · exact absurd h (by simp)
    · next d q hp =>
        split_ifs at h
        have hle := hmap (fun _ => le_rfl) h
        have hlen := congrArg List.length hp
        simp only [List.length_cons, List.length_tail] at hlen
        omega
  · obtain ⟨rfl, rfl⟩ := Prod.mk.inj (Except.ok.inj h)
    simp
  · obtain ⟨rfl, rfl⟩ := Prod.mk.inj (Except.ok.inj h)
    simp
  · exact hmap (fun ep => repeated_le _ ep) h

/-- The pattern is taken apart into its items. -/
inductive Parses : Bytes → List Item → Prop
  | nil : Parses [] []
  | cons {c : Byte} {p rest : Bytes} {item : Item} {items : List Item} :
      nextItem c p = .ok (item, rest) → Parses rest items → Parses (c :: p) (item :: items)

/-! ## `match`, item by item -/

/-- What `match` does at an item: `call` behind which it may come back, `next` otherwise. -/
def Item.run (src : Bytes) (call next : List Capture → Bytes → Search PatError Match)
    (caps : List Capture) (s : Bytes) : Item → Search PatError Match
  | opened => startCapture caps s .unfinished fun caps => call caps s
  | position => startCapture caps s .position fun caps => call caps s
  | closed => endCapture caps s fun caps => call caps s
  | balance b e => (matchBalance s b e).elim (.ok none) (next caps)
  | .frontier set => if Lua.frontier src s set then next caps s else .ok none
  | back l =>
      match matchCapture caps s l with
      | .error e => .error e
      | .ok r => r.elim (.ok none) (next caps)
  | atEnd => if s = [] then next caps s else .ok none
  | single item .one => if matchesHere item s then next caps s.tail else .ok none
  | single item .opt =>
      attempt (if matchesHere item s then call caps s.tail else .ok none) (next caps s)
  | single item .star => maxExpand item s (call caps)
  | single item .plus => if matchesHere item s then maxExpand item s.tail (call caps) else .ok none
  | single item .lazy => minExpand item s (call caps)

/-- `match` reads an item and runs it. -/
theorem matchInit_cons (src : Bytes) (depth : Nat) (caps : List Capture) (s : Bytes) (c : Byte)
    (p : Bytes) :
    matchInit src depth caps s (c :: p) =
      match nextItem c p with
      | .error e => .error e
      | .ok (item, rest) =>
          item.run src (fun caps s => enter depth (matchInit src (depth + 1) caps s rest))
            (fun caps s => matchInit src depth caps s rest) caps s := by
  rw [matchInit, nextItem]
  by_cases hopen : c = 40
  · rw [if_pos hopen, if_pos hopen]
    split_ifs <;> rfl
  rw [if_neg hopen, if_neg hopen]
  by_cases hclose : c = 41
  · rw [if_pos hclose, if_pos hclose]
    rfl
  rw [if_neg hclose, if_neg hclose]
  by_cases hbal : c = esc ∧ p.head? = some 98
  · rw [if_pos hbal, if_pos hbal]
    rcases p.tail with _ | ⟨b, _ | ⟨e, rest⟩⟩ <;> rfl
  rw [if_neg hbal, if_neg hbal]
  by_cases hfront : c = esc ∧ p.head? = some 102
  · rw [if_pos hfront, if_pos hfront]
    rcases p.tail with _ | ⟨d, q⟩
    · rfl
    · dsimp only
      by_cases hd : d ≠ lbr
      · rw [if_pos hd, if_pos hd]
      · rw [if_neg hd, if_neg hd]
        cases classEnd d q <;> rfl
  rw [if_neg hfront, if_neg hfront]
  by_cases hback : c = esc ∧ p.head?.any isDigit
  · rw [if_pos hback, if_pos hback]
    rfl
  rw [if_neg hback, if_neg hback]
  by_cases hend : c = 36 ∧ p = []
  · rw [if_pos hend, if_pos hend]
    simp only [Item.run, matchInit]
  rw [if_neg hend, if_neg hend]
  cases classEnd c p with
  | error e => rfl
  | ok ep =>
      dsimp only [Except.map, repeated]
      by_cases hopt : ep.head? = some 63
      · rw [if_pos hopt, if_pos hopt]
        rfl
      rw [if_neg hopt, if_neg hopt]
      by_cases hstar : ep.head? = some 42
      · rw [if_pos hstar, if_pos hstar]
        rfl
      rw [if_neg hstar, if_neg hstar]
      by_cases hplus : ep.head? = some 43
      · rw [if_pos hplus, if_pos hplus]
        rfl
      rw [if_neg hplus, if_neg hplus]
      by_cases hlazy : ep.head? = some 45
      · rw [if_pos hlazy, if_pos hlazy]
        rfl
      rw [if_neg hlazy, if_neg hlazy]
      rfl

/-! ## A match ends in the subject -/

theorem balanceFrom_suffix {b e : Byte} {cont : Nat} {s t : Bytes}
    (h : balanceFrom b e cont s = some t) : t <:+ s := by
  induction s generalizing cont with
  | nil => simp [balanceFrom] at h
  | cons c s ih =>
      have hcons := List.suffix_cons c s
      rw [balanceFrom] at h
      split_ifs at h
      · obtain rfl := Option.some.inj h
        exact hcons
      · exact (ih h).trans hcons
      · exact (ih h).trans hcons
      · exact (ih h).trans hcons

theorem matchBalance_suffix {b e : Byte} {s t : Bytes} (h : matchBalance s b e = some t) :
    t <:+ s := by
  cases s with
  | nil => simp [matchBalance] at h
  | cons c s =>
      rw [matchBalance] at h
      split_ifs at h
      exact (balanceFrom_suffix h).trans (List.suffix_cons c s)

theorem matchCapture_suffix {caps : List Capture} {l : Byte} {s t : Bytes}
    (h : matchCapture caps s l = .ok (some t)) : t <:+ s := by
  unfold matchCapture at h
  split at h
  · exact absurd h (by simp)
  · split at h
    · split_ifs at h
      · obtain rfl := Option.some.inj (Except.ok.inj h)
        exact List.drop_suffix _ _
      · exact absurd h (by simp)
    · exact absurd h (by simp)

/-- What an item lets `match` find is found further on in the subject. -/
theorem Item.run_eq_some {item : Item} {src s : Bytes} {caps : List Capture} {m : Match}
    {call next : List Capture → Bytes → Search PatError Match}
    (h : item.run src call next caps s = .ok (some m)) :
    ∃ caps' t, t <:+ s ∧ (call caps' t = .ok (some m) ∨ next caps' t = .ok (some m)) := by
  have htail : s.tail <:+ s := List.tail_suffix s
  cases item with
  | opened =>
      rw [run, startCapture] at h
      split_ifs at h
      exact ⟨_, s, List.suffix_rfl, .inl h⟩
  | position =>
      rw [run, startCapture] at h
      split_ifs at h
      exact ⟨_, s, List.suffix_rfl, .inl h⟩
  | closed =>
      rw [run, endCapture] at h
      split at h
      · exact absurd h (by simp)
      · exact ⟨_, s, List.suffix_rfl, .inl h⟩
  | balance b e =>
      rw [run] at h
      cases hb : matchBalance s b e with
      | none => simp [hb] at h
      | some t => exact ⟨caps, t, matchBalance_suffix hb, .inr (by simpa [hb] using h)⟩
  | frontier set =>
      rw [run] at h
      split_ifs at h
      · exact ⟨caps, s, List.suffix_rfl, .inr h⟩
      · exact absurd h (by simp)
  | back l =>
      rw [run] at h
      split at h
      · exact absurd h (by simp)
      · next r hr =>
          cases r with
          | none => simp at h
          | some t => exact ⟨caps, t, matchCapture_suffix hr, .inr h⟩
  | atEnd =>
      rw [run] at h
      split_ifs at h
      · exact ⟨caps, s, List.suffix_rfl, .inr h⟩
      · exact absurd h (by simp)
  | single item rep =>
      cases rep with
      | one =>
          rw [run] at h
          split_ifs at h
          · exact ⟨caps, s.tail, htail, .inr h⟩
          · exact absurd h (by simp)
      | opt =>
          rcases attempt_eq_some h with h | h
          · split_ifs at h
            · exact ⟨caps, s.tail, htail, .inl h⟩
            · exact absurd h (by simp)
          · exact ⟨caps, s, List.suffix_rfl, .inr h⟩
      | star =>
          obtain ⟨t, ht, h⟩ := longestFirst_eq_some h
          exact ⟨caps, t, ht, .inl h⟩
      | plus =>
          rw [run] at h
          split_ifs at h
          · obtain ⟨t, ht, h⟩ := longestFirst_eq_some h
            exact ⟨caps, t, ht.trans htail, .inl h⟩
          · exact absurd h (by simp)
      | lazy =>
          obtain ⟨t, ht, h⟩ := shortestFirst_eq_some h
          exact ⟨caps, t, ht, .inl h⟩

theorem enter_eq_some {depth : Nat} {x : Search PatError Match} {m : Match}
    (h : enter depth x = .ok (some m)) : x = .ok (some m) := by
  rw [enter] at h
  split_ifs at h
  exact h

/-- What is matched stands at the place where it was looked for, whatever the pattern is. -/
theorem matchInit_suffix {src : Bytes} :
    ∀ {p : Bytes} {depth : Nat} {caps : List Capture} {s : Bytes} {m : Match},
      matchInit src depth caps s p = .ok (some m) → m.1 <:+ s := by
  intro p
  induction hn : p.length using Nat.strong_induction_on generalizing p with
  | h n ih =>
      intro depth caps s m h
      cases p with
      | nil =>
          rw [matchInit] at h
          obtain rfl := Option.some.inj (Except.ok.inj h)
          exact List.suffix_rfl
      | cons c p =>
          rw [matchInit_cons] at h
          cases hitem : nextItem c p with
          | error e => simp [hitem] at h
          | ok r =>
              have hlt : r.2.length < n := by
                have hle : r.2.length ≤ p.length := nextItem_le hitem
                rw [← hn, List.length_cons]
                omega
              rw [hitem] at h
              obtain ⟨caps', t, ht, h⟩ := Item.run_eq_some h
              rcases h with h | h
              · exact (ih _ hlt rfl (enter_eq_some h)).trans ht
              · exact (ih _ hlt rfl h).trans ht

theorem matchAt_suffix {src s p : Bytes} {m : Match} (h : matchAt src s p = .ok (some m)) :
    m.1 <:+ s :=
  matchInit_suffix (enter_eq_some h)

/-! ## The meaning of a pattern -/

/-- The ways to repeat a character at `s`: what is left behind each, in order. -/
def Rep.ways (f : Byte → Bool) (s : Bytes) : Rep → List Bytes
  | one => if s.head?.any f then [s.tail] else []
  | opt => (if s.head?.any f then [s.tail] else []) ++ [s]
  | star => (runs f s).reverse
  | plus => if s.head?.any f then (runs f s.tail).reverse else []
  | lazy => runs f s

/-- The ways in which an item matches at `s`, in order. -/
def Item.ways (src : Bytes) (caps : List Capture) (s : Bytes) : Item → List Match
  | opened => [(s, caps ++ [⟨s, .unfinished⟩])]
  | position => [(s, caps ++ [⟨s, .position⟩])]
  | closed =>
      match captureToClose caps caps.length with
      | .error _ => []
      | .ok l => [(s, caps.modify l fun cap => ⟨cap.init, .closed (cap.init.length - s.length)⟩)]
  | balance b e => (matchBalance s b e).toList.map fun t => (t, caps)
  | .frontier set => if Lua.frontier src s set then [(s, caps)] else []
  | back l =>
      match matchCapture caps s l with
      | .error _ => []
      | .ok r => r.toList.map fun t => (t, caps)
  | atEnd => if s = [] then [(s, caps)] else []
  | single item rep => (rep.ways (fun c => singleMatch c item) s).map fun t => (t, caps)

/-- The ways in which the items of a pattern match at `s`, in order. -/
def allMatches (src : Bytes) : List Item → List Capture → Bytes → List Match
  | [], caps, s => [(s, caps)]
  | item :: items, caps, s => (item.ways src caps s).flatMap fun m => allMatches src items m.2 m.1

/-! ## Patterns that raise no error -/

/-- A capture that is not closed. -/
def Capture.isOpen (cap : Capture) : Bool := cap.len = .unfinished

/-- The last capture below `level` that is not closed; `open?` says which are not. -/
def lastOpen (opens : List Bool) : Nat → Option Nat
  | 0 => none
  | level + 1 => if opens[level]? = some true then some level else lastOpen opens level

/-- Which captures are open behind an item, if it raises no error. -/
def Item.opensBehind (opens : List Bool) : Item → Option (List Bool)
  | opened => if opens.length < maxCaptures then some (opens ++ [true]) else none
  | position => if opens.length < maxCaptures then some (opens ++ [false]) else none
  | closed => (lastOpen opens opens.length).map fun l => opens.set l false
  | back l => if 49 ≤ l ∧ opens[(l - 49).toNat]? = some false then some opens else none
  | _ => some opens

/-- The captures of the items are closed in turn, and referred to when they are. -/
def capturesOk (opens : List Bool) (items : List Item) : Bool :=
  (items.foldlM Item.opensBehind opens).isSome

/-- `match` calls itself for what is behind the item. -/
def Item.isCall : Item → Bool
  | opened | position | closed => true
  | single _ rep => rep ≠ .one
  | _ => false

/-- How deep `match` calls itself. -/
def calls (items : List Item) : Nat := items.countP Item.isCall

/-- The items of a pattern that raises no error. -/
structure WellFormed (p : Bytes) (items : List Item) : Prop where
  parsed : Parses p items
  captures : capturesOk [] items = true
  depth : calls items < maxXLevel

/-! ## Captures, by which of them are open -/

theorem captureToClose_eq (caps : List Capture) (level : Nat) :
    captureToClose caps level =
      match lastOpen (caps.map Capture.isOpen) level with
      | none => .error .noOpenCapture
      | some l => .ok l := by
  induction level with
  | zero => rfl
  | succ level ih =>
      have hopen : caps[level]?.map Capture.len = some .unfinished ↔
          (caps.map Capture.isOpen)[level]? = some true := by
        rw [List.getElem?_map]
        cases caps[level]? <;> simp [Capture.isOpen]
      rw [captureToClose, lastOpen]
      by_cases h : caps[level]?.map Capture.len = some .unfinished
      · rw [if_pos h, if_pos (hopen.mp h)]
      · rw [if_neg h, if_neg (fun h' => h (hopen.mpr h')), ih]

theorem map_isOpen_modify (caps : List Capture) (l : Nat) (f : Capture → Capture)
    (hf : ∀ cap, (f cap).isOpen = false) :
    (caps.modify l f).map Capture.isOpen = (caps.map Capture.isOpen).set l false := by
  refine List.ext_getElem? fun i => ?_
  rw [List.getElem?_map, List.getElem?_modify, List.getElem?_set, List.getElem?_map]
  by_cases hi : l = i
  · subst hi
    by_cases hlen : l < caps.length
    · simp [hlen, hf]
    · simp [hlen]
  · simp [hi]

theorem checkCapture_ok {caps : List Capture} {l : Byte} (hl : 49 ≤ l)
    (hopen : (caps.map Capture.isOpen)[(l - 49).toNat]? = some false) :
    ∃ cap, checkCapture caps l = .ok cap := by
  rw [List.getElem?_map, Option.map_eq_some_iff] at hopen
  obtain ⟨cap, hcap, hclosed⟩ := hopen
  have hlen : cap.len ≠ .unfinished := by simpa [Capture.isOpen] using hclosed
  exact ⟨cap, by simp [checkCapture, UInt8.not_lt.mpr hl, hcap, hlen]⟩

theorem matchCapture_ok {caps : List Capture} {l : Byte} (hl : 49 ≤ l)
    (hopen : (caps.map Capture.isOpen)[(l - 49).toNat]? = some false) (s : Bytes) :
    ∃ r, matchCapture caps s l = .ok r := by
  obtain ⟨cap, hcap⟩ := checkCapture_ok hl hopen
  rw [matchCapture, hcap]
  dsimp only
  split <;> exact ⟨_, rfl⟩

/-- Behind an item the captures are open that should be. -/
theorem Item.opens_ways {item : Item} {src s : Bytes} {caps : List Capture} {opens : List Bool}
    (h : item.opensBehind (caps.map Capture.isOpen) = some opens) :
    ∀ m ∈ item.ways src caps s, m.2.map Capture.isOpen = opens := by
  intro m hm
  have hkept : caps.map Capture.isOpen = opens → m.2 = caps → m.2.map Capture.isOpen = opens :=
    fun hopens hcaps => hcaps ▸ hopens
  cases item with
  | opened =>
      obtain rfl := List.mem_singleton.mp hm
      rw [opensBehind] at h
      split_ifs at h
      simpa [Capture.isOpen] using h
  | position =>
      obtain rfl := List.mem_singleton.mp hm
      rw [opensBehind] at h
      split_ifs at h
      simpa [Capture.isOpen] using h
  | closed =>
      rw [opensBehind, List.length_map] at h
      obtain ⟨l, hl, rfl⟩ := Option.map_eq_some_iff.mp h
      rw [ways, captureToClose_eq, hl] at hm
      obtain rfl := List.mem_singleton.mp hm
      exact map_isOpen_modify caps l _ fun _ => rfl
  | balance b e =>
      obtain ⟨t, -, rfl⟩ := List.mem_map.mp hm
      exact hkept (Option.some.inj h) rfl
  | frontier set =>
      rw [ways] at hm
      split_ifs at hm
      · obtain rfl := List.mem_singleton.mp hm
        exact hkept (Option.some.inj h) rfl
      · exact absurd hm List.not_mem_nil
  | back l =>
      rw [opensBehind] at h
      split_ifs at h
      rw [ways] at hm
      split at hm
      · exact absurd hm List.not_mem_nil
      · obtain ⟨t, -, rfl⟩ := List.mem_map.mp hm
        exact hkept (Option.some.inj h) rfl
  | atEnd =>
      rw [ways] at hm
      split_ifs at hm
      · obtain rfl := List.mem_singleton.mp hm
        exact hkept (Option.some.inj h) rfl
      · exact absurd hm List.not_mem_nil
  | single item rep =>
      obtain ⟨t, -, rfl⟩ := List.mem_map.mp hm
      exact hkept (Option.some.inj h) rfl

/-! ## The matcher finds the first -/

theorem matchesHere_eq (item s : Bytes) :
    matchesHere item s = s.head?.any fun c => singleMatch c item := by
  cases s <;> rfl

/-- An item is run through its ways, in their order. -/
theorem Item.finds_run {item : Item} {src s : Bytes} {caps : List Capture} {opens : List Bool}
    {call next : List Capture → Bytes → Search PatError Match} {g : Match → List Match}
    (hopens : item.opensBehind (caps.map Capture.isOpen) = some opens)
    (hcall : item.isCall = true → ∀ m ∈ item.ways src caps s, Finds (call m.2 m.1) (g m))
    (hnext : ∀ m ∈ item.ways src caps s, Finds (next m.2 m.1) (g m)) :
    Finds (item.run src call next caps s) ((item.ways src caps s).flatMap g) := by
  have hfull : ∀ what, maxCaptures ≤ caps.length ∨
      ∀ k, startCapture caps s what k = k (caps ++ [⟨s, what⟩]) := by
    intro what
    by_cases hlen : maxCaptures ≤ caps.length
    · exact .inl hlen
    · exact .inr fun k => if_neg hlen
  cases item with
  | opened =>
      rw [opensBehind, List.length_map] at hopens
      split_ifs at hopens with hlen
      rw [run, (hfull .unfinished).resolve_left (by omega)]
      simpa [ways] using hcall rfl _ (List.mem_singleton_self _)
  | position =>
      rw [opensBehind, List.length_map] at hopens
      split_ifs at hopens with hlen
      rw [run, (hfull .position).resolve_left (by omega)]
      simpa [ways] using hcall rfl _ (List.mem_singleton_self _)
  | closed =>
      rw [opensBehind, List.length_map] at hopens
      obtain ⟨l, hl, -⟩ := Option.map_eq_some_iff.mp hopens
      simp only [ways, run, endCapture, captureToClose_eq, hl] at hcall ⊢
      simpa using hcall rfl _ (List.mem_singleton_self _)
  | balance b e =>
      simp only [ways, run, List.flatMap_map] at hnext ⊢
      exact Finds.elim fun t ht => hnext (t, caps) (List.mem_map_of_mem (by simpa using ht))
  | frontier set =>
      simp only [ways, run] at hnext ⊢
      split_ifs with hf
      · simpa using hnext (s, caps) (by simp [hf])
      · exact Finds.nothing
  | back l =>
      rw [opensBehind] at hopens
      split_ifs at hopens with hl
      obtain ⟨r, hr⟩ := matchCapture_ok hl.1 hl.2 s
      simp only [ways, run, hr, List.flatMap_map] at hnext ⊢
      exact Finds.elim fun t ht => hnext (t, caps) (List.mem_map_of_mem (by simpa using ht))
  | atEnd =>
      simp only [ways, run] at hnext ⊢
      split_ifs with hs
      · simpa using hnext (s, caps) (by simp [hs])
      · exact Finds.nothing
  | single item rep =>
      have hmem : ∀ {t}, t ∈ rep.ways (fun c => singleMatch c item) s →
          (t, caps) ∈ (Item.single item rep).ways src caps s := fun ht => List.mem_map_of_mem ht
      rw [ways, List.flatMap_map]
      cases rep with
      | one =>
          rw [run, matchesHere_eq]
          rw [Rep.ways] at hmem ⊢
          split_ifs with hf
          · simpa using hnext _ (hmem (by simp [hf]))
          · exact Finds.nothing
      | opt =>
          rw [run, matchesHere_eq]
          rw [Rep.ways] at hmem ⊢
          rw [List.flatMap_append, List.flatMap_singleton]
          refine Finds.attempt ?_ (hnext _ (hmem (by simp)))
          split_ifs with hf
          · simpa using hcall rfl _ (hmem (by simp [hf]))
          · exact Finds.nothing
      | star =>
          exact Finds.longestFirst fun t ht => hcall rfl _ (hmem (List.mem_reverse.mpr ht))
      | plus =>
          rw [run, matchesHere_eq]
          rw [Rep.ways] at hmem ⊢
          split_ifs with hf
          · refine Finds.longestFirst fun t ht => hcall rfl _ (hmem ?_)
            rw [if_pos hf]
            exact List.mem_reverse.mpr ht
          · exact Finds.nothing
      | lazy =>
          exact Finds.shortestFirst fun t ht => hcall rfl _ (hmem ht)

theorem matchInit_finds (src : Bytes) {p : Bytes} {items : List Item} (hp : Parses p items) :
    ∀ {depth : Nat} {caps : List Capture} {s : Bytes},
      capturesOk (caps.map Capture.isOpen) items = true → depth + calls items ≤ maxXLevel →
      Finds (matchInit src depth caps s p) (allMatches src items caps s) := by
  induction hp with
  | nil =>
      intro depth caps s _ _
      rw [matchInit]
      exact Finds.one _
  | @cons c p rest item items hitem _ ih =>
      intro depth caps s hcaps hdepth
      obtain ⟨opens, hopens, htail⟩ : ∃ opens,
          item.opensBehind (caps.map Capture.isOpen) = some opens ∧ capturesOk opens items = true := by
        rw [capturesOk, List.foldlM_cons, Option.isSome_iff_exists] at hcaps
        obtain ⟨last, hlast⟩ := hcaps
        obtain ⟨opens, hopens, htail⟩ := Option.bind_eq_some_iff.mp hlast
        exact ⟨opens, hopens, by rw [capturesOk, htail]; rfl⟩
      rw [calls, List.countP_cons] at hdepth
      rw [matchInit_cons, hitem, allMatches]
      refine Item.finds_run hopens (fun hcall m hm => ?_) (fun m hm => ?_)
      · rw [if_pos hcall] at hdepth
        rw [enter, if_neg (by omega)]
        exact ih (by rwa [Item.opens_ways hopens m hm]) (by rw [calls]; omega)
      · exact ih (by rwa [Item.opens_ways hopens m hm]) (by rw [calls]; omega)

/-- **The matcher finds the first of the ways in which the pattern matches.** -/
theorem matchAt_finds {p : Bytes} {items : List Item} (h : WellFormed p items) (src s : Bytes) :
    Finds (matchAt src s p) (allMatches src items [] s) := by
  have hdepth := h.depth
  rw [matchAt, enter, if_neg (by decide)]
  exact matchInit_finds src h.parsed h.captures (by omega)

end Tmg.Lua
