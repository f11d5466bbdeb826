/-
# `Tmg.Lib.DirTree` — directory trees and path resolution

A directory is the list of its entries, in the order in which they are read; an entry is a
name and, where it is a directory itself, what that holds.  A location is the list of the
names on the way from the root, and `leaves` are the locations of the entries that are no
directories.

A path is a list of bytes.  `resolve` follows its components, those between the slashes,
from the root or from the working directory:

    the empty component, .     stays
    ..                         goes back to the parent
    any other                  goes on to the entry of this name

Every component is looked up in a directory, the empty ones included, so `f/` is not a path
of the file `f`, and it makes no difference how many slashes stand between two components
(`resolve_collapse`).  There are no links, and two slashes at the beginning mean what one
does.
-/
import Tmg.Lib.Collapse

namespace Tmg.Lib

abbrev FileName := List UInt8

/-- The names on the way from the root. -/
abbrev Location := List FileName

/-- What a directory holds. -/
inductive Dir where
  | empty
  | file (name : FileName) (rest : Dir)
  | dir (name : FileName) (sub rest : Dir)
deriving DecidableEq, Repr

/-- What can stand at a location. -/
inductive Node where
  | file
  | dir (d : Dir)
deriving DecidableEq, Repr

/-- `'.'` -/
def dot : FileName := [46]

/-- `'..'` -/
def dotdot : FileName := [46, 46]

/-- A name that an entry can have. -/
def LegalName (n : FileName) : Prop := n ≠ [] ∧ n ≠ dot ∧ n ≠ dotdot ∧ 47 ∉ n ∧ 0 ∉ n

instance (n : FileName) : Decidable (LegalName n) := inferInstanceAs (Decidable (_ ∧ _))

namespace Dir

def names : Dir → List FileName
  | empty => []
  | file n rest => n :: rest.names
  | dir n _ rest => n :: rest.names

/-- The names of the entries that are no directories. -/
def files : Dir → List FileName
  | empty => []
  | file n rest => n :: rest.files
  | dir _ _ rest => rest.files

/-- The names of the entries that are directories. -/
def subdirs : Dir → List FileName
  | empty => []
  | file _ rest => rest.subdirs
  | dir n _ rest => n :: rest.subdirs

/-- The entry of a name. -/
def lookup : Dir → FileName → Option Node
  | empty, _ => none
  | file n rest, m => if n = m then some .file else rest.lookup m
  | dir n sub rest, m => if n = m then some (.dir sub) else rest.lookup m

/-- The entries that are no directories, at any depth. -/
def leaves : Dir → List Location
  | empty => []
  | file n rest => [n] :: rest.leaves
  | dir n sub rest => sub.leaves.map (n :: ·) ++ rest.leaves

/-- The names in every directory are legal and distinct. -/
def Legal : Dir → Prop
  | empty => True
  | file n rest => LegalName n ∧ n ∉ rest.names ∧ rest.Legal
  | dir n sub rest => LegalName n ∧ n ∉ rest.names ∧ sub.Legal ∧ rest.Legal

instance decidableLegal : ∀ d : Dir, Decidable d.Legal
  | empty => isTrue trivial
  | file _ rest =>
      have := decidableLegal rest
      inferInstanceAs (Decidable (_ ∧ _))
  | dir _ sub rest =>
      have := decidableLegal sub
      have := decidableLegal rest
      inferInstanceAs (Decidable (_ ∧ _))

theorem mem_names_of_lookup {d : Dir} {n : FileName} {node : Node} (h : d.lookup n = some node) :
    n ∈ d.names := by
  induction d with
  | empty => exact absurd h (by simp [lookup])
  | file m rest ih =>
      rw [lookup] at h
      split at h
      · next hm => exact hm ▸ List.mem_cons_self
      · exact List.mem_cons_of_mem m (ih h)
  | dir m sub rest _ ih =>
      rw [lookup] at h
      split at h
      · next hm => exact hm ▸ List.mem_cons_self
      · exact List.mem_cons_of_mem m (ih h)

/-- What is legal holds legal directories. -/
theorem Legal.lookup {d sub : Dir} {n : FileName} (h : d.Legal) (hn : d.lookup n = some (.dir sub)) :
    sub.Legal := by
  induction d with
  | empty => exact absurd hn (by simp [Dir.lookup])
  | file m rest ih =>
      rw [Dir.lookup] at hn
      split at hn
      · exact absurd hn (by simp)
      · exact ih h.2.2 hn
  | dir m sub' rest _ ih =>
      rw [Dir.lookup] at hn
      split at hn
      · obtain rfl : sub' = sub := by simpa using hn
        exact h.2.2.1
      · exact ih h.2.2.2 hn

end Dir

/-- The entry of a name in a node. -/
def Node.child? : Node → FileName → Option Node
  | .file, _ => none
  | .dir d, n => d.lookup n

/-- What a node holds if it is a directory. -/
def Node.dir? : Node → Option Dir
  | .file => none
  | .dir d => some d

/-- A tree and the location of the working directory. -/
structure FileTree where
  root : Dir
  legal : root.Legal
  cwd : Location

namespace FileTree

variable (fs : FileTree)

/-- What stands at a location. -/
def at? (loc : Location) : Option Node := loc.foldlM Node.child? (.dir fs.root)

/-- The directory at a location. -/
def dirAt? (loc : Location) : Option Dir := (fs.at? loc).bind Node.dir?

/-- One component of a path. -/
def step (loc : Location) (c : FileName) : Option Location :=
  (fs.dirAt? loc).bind fun d =>
    if c = [] ∨ c = dot then some loc
    else if c = dotdot then some loc.dropLast
    else if (d.lookup c).isSome then some (loc ++ [c])
    else none

/-- The components of a path, from a location on. -/
def walk (loc : Location) (p : List UInt8) : Option Location := (p.splitOn 47).foldlM fs.step loc

/-- Where a path leads to. -/
def resolve (p : List UInt8) : Option Location :=
  if p = [] then none else fs.walk (if p.head? = some 47 then [] else fs.cwd) p

/-! ## Locations -/

theorem at?_concat (loc : Location) (n : FileName) :
    fs.at? (loc ++ [n]) = (fs.at? loc).bind (·.child? n) := by
  simp [at?, List.foldlM_append]

variable {fs}

theorem at?_of_dirAt? {loc : Location} {d : Dir} (h : fs.dirAt? loc = some d) :
    fs.at? loc = some (.dir d) := by
  obtain ⟨node, hnode, hdir⟩ := Option.bind_eq_some_iff.mp h
  cases node with
  | file => exact absurd hdir (by simp [Node.dir?])
  | dir d' =>
      obtain rfl : d' = d := by simpa [Node.dir?] using hdir
      exact hnode

/-- The entries of a directory stand one step behind it. -/
theorem dirAt?_concat {loc : Location} {d sub : Dir} {n : FileName} (h : fs.dirAt? loc = some d)
    (hn : d.lookup n = some (.dir sub)) : fs.dirAt? (loc ++ [n]) = some sub := by
  rw [dirAt?, at?_concat, at?_of_dirAt? h]
  exact congrArg (Option.bind · Node.dir?) hn

/-- Every directory of the tree is legal. -/
theorem legal_dirAt? {loc : Location} {d : Dir} (h : fs.dirAt? loc = some d) : d.Legal := by
  induction loc using List.reverseRecOn generalizing d with
  | nil =>
      obtain rfl : fs.root = d := by simpa [dirAt?, at?, Node.dir?] using h
      exact fs.legal
  | append_singleton loc n ih =>
      have hat := at?_of_dirAt? h
      rw [at?_concat] at hat
      obtain ⟨node, hnode, hchild⟩ := Option.bind_eq_some_iff.mp hat
      cases node with
      | file => exact absurd hchild (by simp [Node.child?])
      | dir d' => exact (ih (by rw [dirAt?, hnode]; rfl)).lookup hchild

/-! ## Paths -/

/-- A path goes nowhere from what is no directory. -/
theorem walk_of_not_dir {loc : Location} (h : fs.dirAt? loc = none) (p : List UInt8) :
    fs.walk loc p = none := by
  obtain ⟨c, cs, hcs⟩ := List.exists_cons_of_ne_nil (List.splitOn_ne_nil 47 p)
  rw [walk, hcs, List.foldlM_cons, step, h]
  rfl

theorem walk_nil {loc : Location} {d : Dir} (h : fs.dirAt? loc = some d) :
    fs.walk loc [] = some loc := by
  simp [walk, step, h]

variable (fs) in
/-- Behind a slash a path goes on from where it is. -/
theorem walk_append_slash (loc : Location) (q g : List UInt8) :
    fs.walk loc (q ++ 47 :: g) = (fs.walk loc q).bind (fs.walk · g) := by
  rw [walk, List.splitOn_append_cons_self, List.foldlM_append]
  rfl

variable (fs) in
/-- Two slashes are as good as one. -/
theorem walk_slashes (loc : Location) (q g : List UInt8) :
    fs.walk loc (q ++ 47 :: 47 :: g) = fs.walk loc (q ++ 47 :: g) := by
  rw [walk_append_slash, walk_append_slash]
  congr 1
  funext l
  show fs.walk l ([] ++ 47 :: g) = _
  rw [walk_append_slash]
  cases h : fs.dirAt? l with
  | none => rw [walk_of_not_dir h, walk_of_not_dir h]; rfl
  | some d => rw [walk_nil h, Option.bind_some]

variable (fs) in
/-- What is behind the slash is looked up where the path before it leads to. -/
theorem resolve_append_slash {q : List UInt8} (hq : q ≠ []) (g : List UInt8) :
    fs.resolve (q ++ 47 :: g) = (fs.resolve q).bind (fs.walk · g) := by
  have hne : q ++ 47 :: g ≠ [] := by simp
  rw [resolve, resolve, if_neg hne, if_neg hq, List.head?_append_of_ne_nil _ hq, walk_append_slash]

theorem subset_of_mem_splitOn {a : UInt8} {p c : List UInt8} (hc : c ∈ p.splitOn a) : c ⊆ p := by
  intro x hx
  have hjoin : [a].intercalate (p.splitOn a) = p := List.intercalate_splitOn a
  rw [← hjoin]
  exact mem_intercalate_of_mem hc hx

/-- The invariant rule for a path: what holds where it begins and is kept by every component
of its bytes holds where it leads to. -/
theorem walk_invariant {I : Location → Prop} {p : List UInt8} {loc loc' : Location}
    (hstep : ∀ l c l', c ⊆ p → fs.step l c = some l' → I l → I l')
    (h : fs.walk loc p = some loc') (hloc : I loc) : I loc' := by
  have hrun : ∀ (cs : List FileName) (l : Location), (∀ c ∈ cs, c ⊆ p) →
      cs.foldlM fs.step l = some loc' → I l → I loc' := by
    intro cs
    induction cs with
    | nil =>
        intro l _ hl hI
        obtain rfl := Option.some.inj hl
        exact hI
    | cons c cs ih =>
        intro l hcs hl hI
        rw [List.forall_mem_cons] at hcs
        obtain ⟨t, ht, hl⟩ := Option.bind_eq_some_iff.mp hl
        exact ih t hcs.2 hl (hstep l c t hcs.1 ht hI)
  exact hrun _ loc (fun c hc => subset_of_mem_splitOn hc) h hloc

/-- An entry is found under its name. -/
theorem walk_name {loc : Location} {d : Dir} {n : FileName} {node : Node}
    (h : fs.dirAt? loc = some d) (hlegal : LegalName n) (hn : d.lookup n = some node) :
    fs.walk loc n = some (loc ++ [n]) := by
  obtain ⟨hne, hdot, hdotdot, hslash, -⟩ := hlegal
  rw [walk, List.splitOn_eq_singleton hslash, List.foldlM_cons, step, h]
  simp [hne, hdot, hdotdot, hn]

section Collapse

variable {p : UInt8 → Prop} [DecidablePred p]

theorem walk_collapseFrom (loc : Location) {q : List UInt8} (hq : ∀ c ∈ q, p c ↔ c = 47) :
    ∀ (inRun : Bool) (done : List UInt8), (inRun = true → ∃ d, done = d ++ [47]) →
      fs.walk loc (done ++ collapseFrom p 47 inRun q) = fs.walk loc (done ++ q) := by
  induction q with
  | nil => exact fun _ _ _ => rfl
  | cons c q ih =>
      intro inRun done hdone
      rw [List.forall_mem_cons] at hq
      have ih := ih hq.2
      rw [collapseFrom]
      by_cases hc : c = 47
      · subst hc
        rw [if_pos (hq.1.mpr rfl)]
        cases inRun with
        | true =>
            obtain ⟨d, rfl⟩ := hdone rfl
            rw [if_pos rfl, ih true _ fun _ => ⟨d, rfl⟩, List.append_assoc, List.append_assoc]
            exact (walk_slashes fs loc d q).symm
        | false =>
            have hstep := ih true (done ++ [47]) fun _ => ⟨done, rfl⟩
            rw [List.append_assoc, List.append_assoc] at hstep
            exact hstep
      · rw [if_neg (fun h => hc (hq.1.mp h))]
        have hstep := ih false (done ++ [c]) (fun h => absurd h (by decide))
        rw [List.append_assoc, List.append_assoc] at hstep
        exact hstep

variable (fs) in
/-- Runs of slashes may be written as one. -/
theorem resolve_collapse {q : List UInt8} (hq : ∀ c ∈ q, p c ↔ c = 47) :
    fs.resolve (collapse p 47 q) = fs.resolve q := by
  cases q with
  | nil => rfl
  | cons c q =>
      have hhead : (collapse p 47 (c :: q)).head? = some c := by
        rw [collapse, collapseFrom]
        split
        · next hc => rw [(hq c List.mem_cons_self).mp hc]; rfl
        · rfl
      have hcons : c :: q ≠ [] := by simp
      have hne : collapse p 47 (c :: q) ≠ [] := collapse_ne_nil hcons
      have hwalk : ∀ loc, fs.walk loc (collapse p 47 (c :: q)) = fs.walk loc (c :: q) :=
        fun loc => walk_collapseFrom loc hq false [] (by simp)
      rw [resolve, resolve, if_neg hne, if_neg hcons, hhead, List.head?_cons]
      exact hwalk _

end Collapse

end FileTree

end Tmg.Lib
