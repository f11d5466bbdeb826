/-
# `Tmg.Nob.ReadDir` — `nob.read_dir`

The walker lists a directory, goes down into its directories and returns the paths of the
other entries.  It makes every path with `path_join`, from the path it was given and the
name of the entry, and `path_join` writes backslashes as slashes.  On a POSIX system a
backslash is a byte of a name like any other:

    entry     a\b          path      ./a/b        of another entry, or of none
    directory d\e          read      ./d/e
    directory \            read      .//          which is the directory again, without end

`listsEntries_iff` says what it takes for the returned paths to be those of the entries:
none of these, nor a directory on the way to it, has a backslash in its name, and what is
read in the place of a directory that has one comes to an end without a path.  Where there
is nothing to return, only the last part is left.

The tree is one thing, what the system tells of it another: `readdir` reports a `d_type`,
which the walker takes at its word, and `opendir` can fail on a directory that exists, which
the walker passes over without a word.  Both belong to the `System`, and `Reports` is what
the walker relies on.
-/
import Tmg.Nob.Path
import Tmg.Lib.DirTree

namespace Tmg.Nob

open Lib

/-! ## The walker -/

/-- `struct dirent` -/
structure Dirent where
  name : Bytes
  dType : Nat
deriving DecidableEq, Repr

/-- `DT_DIR` -/
def dtDir : Nat := 4

/-- The tree; the `d_type` that is reported for an entry of the directory at a location, and
whether a directory can be opened under a path while so many others are open. -/
structure System where
  fs : FileTree
  dType : Location → Bytes → Node → Nat
  opens : Nat → Bytes → Bool

/-- The file system reports the types of its entries, and every directory can be opened. -/
structure System.Reports (os : System) : Prop where
  dType_iff : ∀ loc n node, os.dType loc n node = dtDir ↔ ∃ d, node = .dir d
  opens : ∀ opened p, (os.fs.resolve p).bind os.fs.dirAt? ≠ none → os.opens opened p = true

/-- The entries of a directory, `dType` being what is reported for them. -/
def entries (dType : Bytes → Node → Nat) : Dir → List Dirent
  | .empty => []
  | .file n rest => ⟨n, dType n .file⟩ :: entries dType rest
  | .dir n sub rest => ⟨n, dType n (.dir sub)⟩ :: entries dType rest

/-- `opendir`, and what `readdir` returns until it returns `NULL`. -/
def opendir (os : System) (opened : Nat) (dirPath : Bytes) : Option (List Dirent) := do
  let loc ← os.fs.resolve dirPath
  let d ← os.fs.dirAt? loc
  if os.opens opened dirPath then
    some (⟨dot, os.dType loc dot (.dir d)⟩ :: ⟨dotdot, os.dType loc dotdot (.dir d)⟩ ::
      entries (os.dType loc) d)
  else none

/-- The loop over the entries, `readSub` being the recursive call. -/
def readEntries (readSub : Bytes → Option (List Bytes)) (recursive : Bool) (dirPath : Bytes) :
    List Dirent → Option (List Bytes)
  | [] => some []
  | entry :: dir => do
      let name := entry.name
      let found ←
        if name ≠ dot ∧ name ≠ dotdot then
          let fullPath := pathJoin false [dirPath, name]
          if entry.dType = dtDir then
            if recursive then readSub fullPath else some []
          else some [fullPath]
        else some []
      let files ← readEntries readSub recursive dirPath dir
      some (found ++ files)

/-- `nob.read_dir` on a POSIX system, while `opened` directories are open; `none` where it
goes down deeper than `depth`. -/
def readDir (os : System) : Nat → Nat → Bytes → Option Bool → Option (List Bytes)
  | 0, _, _, _ => none
  | depth + 1, opened, dirPath, recursive =>
      match opendir os opened dirPath with
      | none => some []
      | some dir =>
          readEntries (fun path => readDir os depth (opened + 1) path (some true))
            (recursive.getD true) dirPath dir

/-- The call returns one path for every entry below `loc` that is no directory, which leads
to it, and no other path. -/
def ListsEntries (os : System) (opened : Nat) (dirPath : Bytes) (loc : Location) (d : Dir) : Prop :=
  ∃ depth paths, readDir os depth opened dirPath (some true) = some paths ∧
    (paths.map os.fs.resolve).Perm (d.leaves.map fun leaf => some (loc ++ leaf))

/-! ## The walk over the locations -/

/-- Where the path leads to that is made for an entry of the directory at `loc`. -/
def target (fs : FileTree) (loc : Location) (n : Bytes) : Option Location :=
  fs.walk loc (gsubSeps false n)

/-- The loop, by where its paths lead to; `base` is where they set out from. -/
def visitEntries (fs : FileTree) (visitSub : Option Location → Option (List (Option Location)))
    (base : Option Location) : Dir → Option (List (Option Location))
  | .empty => some []
  | .file n rest => (visitEntries fs visitSub base rest).map (base.bind (target fs · n) :: ·)
  | .dir n _ rest =>
      (visitSub (base.bind (target fs · n))).bind fun found =>
        (visitEntries fs visitSub base rest).map (found ++ ·)

/-- The walker, by where its paths lead to. -/
def visit (fs : FileTree) : Nat → Option Location → Option (List (Option Location))
  | 0, _ => none
  | _ + 1, none => some []
  | depth + 1, some loc =>
      match fs.dirAt? loc with
      | none => some []
      | some d => visitEntries fs (visit fs depth) (some loc) d

section

variable {fs : FileTree}

/-- A path without a backslash leads to the same with its runs of slashes written as one. -/
theorem resolve_gsubSeps {p : Bytes} (hp : bsl ∉ p) :
    fs.resolve (gsubSeps false p) = fs.resolve p := by
  refine FileTree.resolve_collapse fs fun c hc => ?_
  exact or_iff_left fun h => hp (h ▸ hc)

theorem bsl_not_mem_gsubSeps (p : Bytes) : bsl ∉ gsubSeps false p := by
  intro h
  have hsep : bsl = 47 := eq_of_mem_collapseFrom h (.inr rfl)
  exact absurd hsep (by decide)

theorem bsl_not_mem_pathJoin (parts : List Bytes) : bsl ∉ pathJoin false parts := by
  intro h
  have hsep : bsl = 47 := eq_pathSep_of_mem false h (.inr rfl)
  exact absurd hsep (by decide)

/-- The path of an entry leads on from where the path before it leads to, with slashes for
its backslashes. -/
theorem resolve_pathJoin {p n : Bytes} (hp : p ≠ []) (hn : n ≠ []) :
    fs.resolve (pathJoin false [p, n]) = (fs.resolve (gsubSeps false p)).bind (target fs · n) := by
  have hjoin : pathJoin false [p, n] = gsubSeps false p ++ 47 :: gsubSeps false n := by
    simp [pathJoin, cleanParts, hp, hn, pathSep]
  have hgsub : gsubSeps false p ≠ [] := collapse_ne_nil hp
  rw [hjoin, FileTree.resolve_append_slash fs hgsub]
  rfl

theorem ne_nil_of_resolve {p : Bytes} {loc : Location} (h : fs.resolve p = some loc) : p ≠ [] := by
  rintro rfl
  exact absurd h (by simp [FileTree.resolve])

/-- The loop over the paths is the loop over the locations. -/
theorem readEntries_visitEntries {readSub : Bytes → Option (List Bytes)}
    {visitSub : Option Location → Option (List (Option Location))} {dType : Bytes → Node → Nat}
    (htype : ∀ n node, dType n node = dtDir ↔ ∃ d, node = .dir d) {p : Bytes} (hp : p ≠ [])
    (hsub : ∀ path, bsl ∉ path →
      (readSub path).map (List.map fs.resolve) = visitSub (fs.resolve path))
    {d : Dir} (hd : d.Legal) :
    (readEntries readSub true p (entries dType d)).map (List.map fs.resolve) =
      visitEntries fs visitSub (fs.resolve (gsubSeps false p)) d := by
  induction d with
  | empty => rfl
  | file n rest ih =>
      obtain ⟨⟨hne, hdot, hdotdot, -⟩, -, hrest⟩ := hd
      have hpath := @resolve_pathJoin fs _ _ hp hne
      have hfile : dType n .file ≠ dtDir := fun h => absurd ((htype n .file).mp h) (by simp)
      rw [visitEntries, ← ih hrest, entries, readEntries]
      cases readEntries readSub true p (entries dType rest) <;> simp [hdot, hdotdot, hfile, hpath]
  | dir n sub rest _ ih =>
      obtain ⟨⟨hne, hdot, hdotdot, -⟩, -, -, hrest⟩ := hd
      have hpath := @resolve_pathJoin fs _ _ hp hne
      have hdir : dType n (.dir sub) = dtDir := (htype n (.dir sub)).mpr ⟨sub, rfl⟩
      rw [visitEntries, ← ih hrest, entries, readEntries, ← hpath,
        ← hsub _ (bsl_not_mem_pathJoin [p, n])]
      cases hfound : readSub (pathJoin false [p, n]) <;>
        cases readEntries readSub true p (entries dType rest) <;> simp [hdot, hdotdot, hdir, hfound]

variable {os : System}

theorem opendir_eq (h : os.Reports) {p : Bytes} {loc : Location} {d : Dir}
    (hp : os.fs.resolve p = some loc) (hd : os.fs.dirAt? loc = some d) (opened : Nat) :
    opendir os opened p = some (⟨dot, os.dType loc dot (.dir d)⟩ ::
      ⟨dotdot, os.dType loc dotdot (.dir d)⟩ :: entries (os.dType loc) d) := by
  have hopen : os.opens opened p = true := h.opens opened p (by simp [hp, hd])
  simp [opendir, hp, hd, hopen]

/-- What the walker does with the entries of a directory. -/
theorem readDir_entries (h : os.Reports) {p : Bytes} {loc : Location} {d : Dir}
    (hp : os.fs.resolve p = some loc) (hd : os.fs.dirAt? loc = some d) {depth opened : Nat}
    (hsub : ∀ path, bsl ∉ path →
      (readDir os depth (opened + 1) path (some true)).map (List.map os.fs.resolve) =
        visit os.fs depth (os.fs.resolve path)) :
    (readDir os (depth + 1) opened p (some true)).map (List.map os.fs.resolve) =
      visitEntries os.fs (visit os.fs depth) (os.fs.resolve (gsubSeps false p)) d := by
  have hskip : ∀ i j es, readEntries (fun path => readDir os depth (opened + 1) path (some true))
        true p (⟨dot, i⟩ :: ⟨dotdot, j⟩ :: es) =
      readEntries (fun path => readDir os depth (opened + 1) path (some true)) true p es := by
    intro i j es
    simp [readEntries]
  have hrun := readEntries_visitEntries (h.dType_iff loc) (ne_nil_of_resolve hp) hsub
    (FileTree.legal_dirAt? hd)
  rw [readDir, opendir_eq h hp hd]
  simp only [Option.getD_some, hskip]
  exact hrun

/-- **The walker visits locations.**  Where its paths lead to does not depend on the path it
was given, if there is no backslash in it. -/
theorem readDir_visit (h : os.Reports) :
    ∀ (depth opened : Nat) (p : Bytes), bsl ∉ p →
      (readDir os depth opened p (some true)).map (List.map os.fs.resolve) =
        visit os.fs depth (os.fs.resolve p)
  | 0, _, _, _ => rfl
  | depth + 1, opened, p, hclean => by
      cases hp : os.fs.resolve p with
      | none =>
          have hclosed : opendir os opened p = none := by simp [opendir, hp]
          rw [readDir, hclosed]
          rfl
      | some loc =>
          cases hd : os.fs.dirAt? loc with
          | none =>
              have hclosed : opendir os opened p = none := by simp [opendir, hp, hd]
              rw [readDir, hclosed]
              simp [visit, hd]
          | some d =>
              rw [readDir_entries h hp hd (readDir_visit h depth (opened + 1)),
                resolve_gsubSeps hclean, hp]
              simp [visit, hd]

/-! ## What is read in the place of a directory -/

/-- Reading there comes to an end, and no path is found: it is no directory, or one that
holds only directories, in whose places, again, nothing is found. -/
inductive Quiet (fs : FileTree) : Option Location → Prop
  | nowhere : Quiet fs none
  | notDir {loc : Location} : fs.dirAt? loc = none → Quiet fs (some loc)
  | dir {loc : Location} {d : Dir} : fs.dirAt? loc = some d → d.files = [] →
      (∀ n ∈ d.subdirs, Quiet fs (target fs loc n)) → Quiet fs (some loc)

theorem visitEntries_eq_nil {visitSub : Option Location → Option (List (Option Location))}
    {base : Option Location} {d : Dir} :
    visitEntries fs visitSub base d = some [] ↔
      d.files = [] ∧ ∀ n ∈ d.subdirs, visitSub (base.bind (target fs · n)) = some [] := by
  induction d with
  | empty => simp [visitEntries, Dir.files, Dir.subdirs]
  | file n rest _ => simp [visitEntries, Dir.files]
  | dir n sub rest _ ih =>
      rw [visitEntries, Dir.files, Dir.subdirs, List.forall_mem_cons, Option.bind_eq_some_iff]
      constructor
      · rintro ⟨found, hfound, h⟩
        obtain ⟨files, hfiles, happend⟩ := Option.map_eq_some_iff.mp h
        obtain ⟨rfl, rfl⟩ := List.append_eq_nil_iff.mp happend
        obtain ⟨hnone, hsubs⟩ := ih.mp hfiles
        exact ⟨hnone, hfound, hsubs⟩
      · rintro ⟨hnone, hfound, hsubs⟩
        refine ⟨[], hfound, ?_⟩
        rw [ih.mpr ⟨hnone, hsubs⟩]
        rfl

/-- A walker that goes down deeper finds the same. -/
theorem visitEntries_mono {v v' : Option Location → Option (List (Option Location))}
    (hv : ∀ t xs, v t = some xs → v' t = some xs) {base : Option Location} {d : Dir}
    {xs : List (Option Location)} (h : visitEntries fs v base d = some xs) :
    visitEntries fs v' base d = some xs := by
  induction d generalizing xs with
  | empty => exact h
  | file n rest ih =>
      obtain ⟨ys, hys, rfl⟩ := Option.map_eq_some_iff.mp h
      rw [visitEntries, ih hys]
      rfl
  | dir n sub rest _ ih =>
      obtain ⟨found, hfound, h⟩ := Option.bind_eq_some_iff.mp h
      obtain ⟨ys, hys, rfl⟩ := Option.map_eq_some_iff.mp h
      rw [visitEntries, hv _ _ hfound, ih hys]
      rfl

theorem visit_succ : ∀ {depth : Nat} {t : Option Location} {xs : List (Option Location)},
    visit fs depth t = some xs → visit fs (depth + 1) t = some xs
  | 0, _, _, h => absurd h (by simp [visit])
  | _ + 1, none, _, h => h
  | depth + 1, some loc, xs, h => by
      rw [visit] at h ⊢
      cases hd : fs.dirAt? loc with
      | none => simpa [hd] using h
      | some d =>
          simp only [hd] at h ⊢
          exact visitEntries_mono (fun t ys ht => visit_succ ht) h

theorem visit_mono {depth depth' : Nat} (hle : depth ≤ depth') {t : Option Location}
    {xs : List (Option Location)} (h : visit fs depth t = some xs) : visit fs depth' t = some xs := by
  induction hle with
  | refl => exact h
  | step _ ih => exact visit_succ ih

/-- Finitely many depths are within one. -/
theorem exists_depth {P : Nat → Bytes → Prop}
    (hP : ∀ n depth depth', depth ≤ depth' → P depth n → P depth' n)
    {ns : List Bytes} (h : ∀ n ∈ ns, ∃ depth, P depth n) : ∃ depth, ∀ n ∈ ns, P depth n := by
  induction ns with
  | nil => exact ⟨0, by simp⟩
  | cons n ns ih =>
      rw [List.forall_mem_cons] at h
      obtain ⟨a, ha⟩ := h.1
      obtain ⟨b, hb⟩ := ih h.2
      refine ⟨max a b, List.forall_mem_cons.mpr ⟨hP n a _ (Nat.le_max_left a b) ha, ?_⟩⟩
      exact fun m hm => hP m b _ (Nat.le_max_right a b) (hb m hm)

theorem quiet_iff {t : Option Location} : Quiet fs t ↔ ∃ depth, visit fs depth t = some [] := by
  constructor
  · intro h
    induction h with
    | nowhere => exact ⟨1, rfl⟩
    | notDir hd => exact ⟨1, by simp [visit, hd]⟩
    | @dir loc d hd hnone _ ih =>
        obtain ⟨depth, hsubs⟩ := exists_depth
          (P := fun depth n => visit fs depth (target fs loc n) = some [])
          (fun n a b hab ha => visit_mono hab ha) ih
        refine ⟨depth + 1, ?_⟩
        simp only [visit, hd]
        exact visitEntries_eq_nil.mpr ⟨hnone, hsubs⟩
  · rintro ⟨depth, h⟩
    induction depth generalizing t with
    | zero => exact absurd h (by simp [visit])
    | succ depth ih =>
        cases t with
        | none => exact .nowhere
        | some loc =>
            cases hd : fs.dirAt? loc with
            | none => exact .notDir hd
            | some d =>
                simp only [visit, hd] at h
                obtain ⟨hnone, hsubs⟩ := visitEntries_eq_nil.mp h
                exact .dir hd hnone fun n hn => ih (hsubs n hn)

/-! ## The directory of the call -/

/-- No entry below `loc` that is no directory, and no directory on the way to one, has a
backslash in its name; what is read in the place of the other directories is quiet. -/
def Calm (fs : FileTree) (loc : Location) : Dir → Prop
  | .empty => True
  | .file n rest => bsl ∉ n ∧ Calm fs loc rest
  | .dir n sub rest =>
      (if bsl ∈ n then sub.leaves = [] ∧ Quiet fs (target fs loc n) else Calm fs (loc ++ [n]) sub) ∧
        Calm fs loc rest

/-- These are entries of the directory at `loc`. -/
structure PartOf (fs : FileTree) (loc : Location) (d : Dir) : Prop where
  legal : d.Legal
  found : ∃ whole, fs.dirAt? loc = some whole ∧
    ∀ n node, d.lookup n = some node → whole.lookup n = some node

/-- The entries behind the first one, `n`. -/
theorem PartOf.behind {loc : Location} {d rest : Dir} {n : Bytes} (h : PartOf fs loc d)
    (hrest : rest.Legal) (hn : n ∉ rest.names) (hlook : ∀ m, n ≠ m → d.lookup m = rest.lookup m) :
    PartOf fs loc rest := by
  obtain ⟨-, whole, hwhole, hall⟩ := h
  refine ⟨hrest, whole, hwhole, fun m node hm => hall m node ?_⟩
  have hne : n ≠ m := by
    rintro rfl
    exact hn (Dir.mem_names_of_lookup hm)
  rw [hlook m hne, hm]

theorem PartOf.file_rest {loc : Location} {n : Bytes} {rest : Dir}
    (h : PartOf fs loc (.file n rest)) : PartOf fs loc rest := by
  obtain ⟨-, hn, hrest⟩ := h.legal
  exact h.behind hrest hn fun m hm => if_neg hm

theorem PartOf.dir_rest {loc : Location} {n : Bytes} {sub rest : Dir}
    (h : PartOf fs loc (.dir n sub rest)) : PartOf fs loc rest := by
  obtain ⟨-, hn, -, hrest⟩ := h.legal
  exact h.behind hrest hn fun m hm => if_neg hm

theorem PartOf.dir_sub {loc : Location} {n : Bytes} {sub rest : Dir}
    (h : PartOf fs loc (.dir n sub rest)) : fs.dirAt? (loc ++ [n]) = some sub := by
  obtain ⟨-, whole, hwhole, hall⟩ := h
  exact FileTree.dirAt?_concat hwhole (hall n (.dir sub) (if_pos rfl))

/-- The path of an entry without a backslash leads to the entry. -/
theorem target_of_clean {loc : Location} {d : Dir} {n : Bytes} {node : Node}
    (h : PartOf fs loc d) (hlegal : LegalName n) (hn : d.lookup n = some node) (hclean : bsl ∉ n) :
    target fs loc n = some (loc ++ [n]) := by
  have hself : gsubSeps false n = n := by
    refine collapseFrom_of_forall_not (fun c hc hsep => ?_) false
    rcases hsep with rfl | rfl
    · exact hlegal.2.2.2.1 hc
    · exact hclean hc
  obtain ⟨-, whole, hwhole, hall⟩ := h
  rw [target, hself]
  exact FileTree.walk_name hwhole hlegal (hall n node hn)

theorem visitEntries_of_calm {loc : Location} {d : Dir} (hd : PartOf fs loc d)
    (hcalm : Calm fs loc d) :
    ∃ depth, visitEntries fs (visit fs depth) (some loc) d =
      some (d.leaves.map fun leaf => some (loc ++ leaf)) := by
  induction d generalizing loc with
  | empty => exact ⟨0, rfl⟩
  | file n rest ih =>
      obtain ⟨depth, hrest⟩ := ih hd.file_rest hcalm.2
      have htarget := target_of_clean hd hd.legal.1 (if_pos rfl) hcalm.1
      exact ⟨depth, by simp [visitEntries, hrest, htarget, Dir.leaves]⟩
  | dir n sub rest ihsub ih =>
      obtain ⟨a, hrest⟩ := ih hd.dir_rest hcalm.2
      by_cases hn : bsl ∈ n
      · have hquiet := hcalm.1
        rw [if_pos hn] at hquiet
        obtain ⟨b, hb⟩ := quiet_iff.mp hquiet.2
        refine ⟨max a b, ?_⟩
        rw [visitEntries, Option.bind_some, visit_mono (Nat.le_max_right a b) hb,
          visitEntries_mono (fun t xs => visit_mono (Nat.le_max_left a b)) hrest]
        simp [Dir.leaves, hquiet.1]
      · have hsub := hcalm.1
        rw [if_neg hn] at hsub
        have hdir := hd.dir_sub
        obtain ⟨b, hb⟩ := ihsub ⟨hd.legal.2.2.1, sub, hdir, fun _ _ h => h⟩ hsub
        have hvisit : visit fs (b + 1) (some (loc ++ [n])) =
            some (sub.leaves.map fun leaf => some (loc ++ [n] ++ leaf)) := by
          simpa [visit, hdir] using hb
        have htarget := target_of_clean hd hd.legal.1 (if_pos rfl) hn
        refine ⟨max a (b + 1), ?_⟩
        rw [visitEntries, Option.bind_some, htarget, visit_mono (Nat.le_max_right a (b + 1)) hvisit,
          visitEntries_mono (fun t xs => visit_mono (Nat.le_max_left a (b + 1))) hrest]
        simp [Dir.leaves, Function.comp_def]

/-- Where no entry that is no directory has a backslash on its way, each is among what the
walker visits, and if it visits nothing else the directories that have one are quiet. -/
theorem calm_of_visitEntries {loc : Location} {d : Dir} (hd : PartOf fs loc d)
    (hclean : ∀ leaf ∈ d.leaves, ∀ n ∈ leaf, bsl ∉ n) {depth : Nat} {xs : List (Option Location)}
    (h : visitEntries fs (visit fs depth) (some loc) d = some xs) :
    d.leaves.length ≤ xs.length ∧ (xs.length = d.leaves.length → Calm fs loc d) := by
  induction d generalizing loc depth xs with
  | empty => exact ⟨Nat.zero_le _, fun _ => trivial⟩
  | file n rest ih =>
      obtain ⟨ys, hys, rfl⟩ := Option.map_eq_some_iff.mp h
      rw [Dir.leaves, List.forall_mem_cons] at hclean
      obtain ⟨hle, hcalm⟩ := ih hd.file_rest hclean.2 hys
      rw [Dir.leaves, List.length_cons, List.length_cons]
      exact ⟨by omega, fun heq => ⟨hclean.1 n List.mem_cons_self, hcalm (by omega)⟩⟩
  | dir n sub rest ihsub ih =>
      obtain ⟨found, hfound, h⟩ := Option.bind_eq_some_iff.mp h
      obtain ⟨ys, hys, rfl⟩ := Option.map_eq_some_iff.mp h
      rw [Dir.leaves, List.forall_mem_append, List.forall_mem_map] at hclean
      obtain ⟨hle, hcalm⟩ := ih hd.dir_rest hclean.2 hys
      rw [Dir.leaves, List.length_append, List.length_append, List.length_map]
      by_cases hn : bsl ∈ n
      · have hnone : sub.leaves = [] := by
          refine List.eq_nil_iff_forall_not_mem.mpr fun leaf hleaf => ?_
          exact hclean.1 leaf hleaf n List.mem_cons_self hn
        rw [hnone, List.length_nil]
        refine ⟨by omega, fun heq => ⟨?_, hcalm (by omega)⟩⟩
        have hempty : found = [] := List.length_eq_zero_iff.mp (by omega)
        rw [if_pos hn]
        exact ⟨hnone, quiet_iff.mpr ⟨depth, hempty ▸ hfound⟩⟩
      · have htarget := target_of_clean hd hd.legal.1 (if_pos rfl) hn
        have hdir := hd.dir_sub
        cases depth with
        | zero => exact absurd hfound (by simp [visit])
        | succ depth =>
            have hsub : visitEntries fs (visit fs depth) (some (loc ++ [n])) sub = some found := by
              simpa [visit, htarget, hdir] using hfound
            obtain ⟨hlesub, hcalmsub⟩ := ihsub ⟨hd.legal.2.2.1, sub, hdir, fun _ _ h => h⟩
              (fun leaf hleaf m hm => hclean.1 leaf hleaf m (List.mem_cons_of_mem n hm)) hsub
            refine ⟨by omega, fun heq => ⟨?_, hcalm (by omega)⟩⟩
            rw [if_neg hn]
            exact hcalmsub (by omega)

/-! ## Where the walker can get -/

/-- Back from `loc` some way, and on by names without a backslash. -/
def CleanFrom (loc loc' : Location) : Prop :=
  ∃ back on, back <+: loc ∧ loc' = back ++ on ∧ ∀ n ∈ on, bsl ∉ n

theorem CleanFrom.refl (loc : Location) : CleanFrom loc loc :=
  ⟨loc, [], List.prefix_rfl, (List.append_nil loc).symm, by simp⟩

theorem CleanFrom.step {loc l l' : Location} {c : Bytes} (h : CleanFrom loc l) (hc : bsl ∉ c)
    (hstep : fs.step l c = some l') : CleanFrom loc l' := by
  obtain ⟨d, -, hstep⟩ := Option.bind_eq_some_iff.mp hstep
  obtain ⟨back, on, hback, rfl, hon⟩ := h
  split_ifs at hstep
  · obtain rfl := Option.some.inj hstep
    exact ⟨back, on, hback, rfl, hon⟩
  · obtain rfl := Option.some.inj hstep
    rcases List.eq_nil_or_concat' on with rfl | ⟨on, n, rfl⟩
    · refine ⟨back.dropLast, [], (List.dropLast_prefix back).trans hback, by simp, by simp⟩
    · rw [List.forall_mem_append] at hon
      exact ⟨back, on, hback, by simp [← List.append_assoc], hon.1⟩
  · obtain rfl := Option.some.inj hstep
    refine ⟨back, on ++ [c], hback, List.append_assoc .., ?_⟩
    rw [List.forall_mem_append]
    exact ⟨hon, by simpa using hc⟩

theorem CleanFrom.target {loc l l' : Location} {n : Bytes} (h : CleanFrom loc l)
    (ht : target fs l n = some l') : CleanFrom loc l' := by
  refine FileTree.walk_invariant (I := CleanFrom loc) ?_ ht h
  intro a c b hc hstep ha
  exact ha.step (fun hb => bsl_not_mem_gsubSeps n (hc hb)) hstep

/-- The invariant rule for the loop. -/
theorem visitEntries_invariant {I : Location → Prop}
    {visitSub : Option Location → Option (List (Option Location))} {base : Option Location}
    (htarget : ∀ n l, base.bind (target fs · n) = some l → I l)
    (hsub : ∀ t xs, (∀ l, t = some l → I l) → visitSub t = some xs → ∀ l, some l ∈ xs → I l)
    {d : Dir} {xs : List (Option Location)} (h : visitEntries fs visitSub base d = some xs) :
    ∀ l, some l ∈ xs → I l := by
  induction d generalizing xs with
  | empty =>
      obtain rfl := Option.some.inj h
      exact fun l hl => absurd hl (by simp)
  | file n rest ih =>
      obtain ⟨ys, hys, rfl⟩ := Option.map_eq_some_iff.mp h
      intro l hl
      rcases List.mem_cons.mp hl with hl | hl
      · exact htarget n l hl.symm
      · exact ih hys l hl
  | dir n sub rest _ ih =>
      obtain ⟨found, hfound, h⟩ := Option.bind_eq_some_iff.mp h
      obtain ⟨ys, hys, rfl⟩ := Option.map_eq_some_iff.mp h
      intro l hl
      rcases List.mem_append.mp hl with hl | hl
      · exact hsub _ _ (htarget n) hfound l hl
      · exact ih hys l hl

/-- The invariant rule for the walker: what holds of where it sets out from and is kept from a
directory to the target of each of its entries holds of all that it finds. -/
theorem visit_invariant {I : Location → Prop}
    (hstep : ∀ l n l', I l → target fs l n = some l' → I l') :
    ∀ {depth : Nat} {t : Option Location} {xs : List (Option Location)},
      (∀ l, t = some l → I l) → visit fs depth t = some xs → ∀ l, some l ∈ xs → I l
  | 0, _, _, _, h => absurd h (by simp [visit])
  | _ + 1, none, xs, _, h => by
      obtain rfl := Option.some.inj h
      exact fun l hl => absurd hl (by simp)
  | depth + 1, some loc, xs, ht, h => by
      have hloc := ht loc rfl
      rw [visit] at h
      cases hd : fs.dirAt? loc with
      | none =>
          obtain rfl : [] = xs := by simpa [hd] using h
          exact fun l hl => absurd hl (by simp)
      | some d =>
          simp only [hd] at h
          have htarget : ∀ n l, (some loc).bind (target fs · n) = some l → I l :=
            fun n l hl => hstep loc n l hloc hl
          exact visitEntries_invariant htarget (fun t xs => visit_invariant hstep) h

/-- The same from a base. -/
theorem visitEntries_visit_invariant {I : Location → Prop}
    (hstep : ∀ l n l', I l → target fs l n = some l' → I l') {base : Option Location}
    (hbase : ∀ l, base = some l → I l) {depth : Nat} {d : Dir} {xs : List (Option Location)}
    (h : visitEntries fs (visit fs depth) base d = some xs) : ∀ l, some l ∈ xs → I l := by
  refine visitEntries_invariant (fun n l hl => ?_) (fun t xs => visit_invariant hstep) h
  obtain ⟨b, hb, hl⟩ := Option.bind_eq_some_iff.mp hl
  exact hstep b n l (hbase b hb) hl

/-- What is below `loc` and can be got to has no backslash on the way from `loc`. -/
theorem CleanFrom.below {loc leaf : Location} (h : CleanFrom loc (loc ++ leaf)) :
    ∀ n ∈ leaf, bsl ∉ n := by
  obtain ⟨back, on, ⟨more, rfl⟩, heq, hon⟩ := h
  rw [List.append_assoc] at heq
  rw [← List.append_cancel_left heq] at hon
  exact fun n hn => hon n (List.mem_append_right more hn)

end

/-- There is nothing to return, and what is read in the place of the directories is quiet; or
the path leads to the directory with slashes for its backslashes as well, and the directory
is calm. -/
def PathsHold (fs : FileTree) (dirPath : Bytes) (loc : Location) (d : Dir) : Prop :=
  (d.leaves = [] ∧
      ∀ n ∈ d.subdirs, Quiet fs ((fs.resolve (gsubSeps false dirPath)).bind (target fs · n))) ∨
    (fs.resolve (gsubSeps false dirPath) = some loc ∧ Calm fs loc d)

theorem files_eq_nil_of_leaves {d : Dir} (h : d.leaves = []) : d.files = [] := by
  induction d with
  | empty => rfl
  | file n rest _ => exact absurd h (by simp [Dir.leaves])
  | dir n sub rest _ ih => exact ih (List.append_eq_nil_iff.mp h).2

section

variable {os : System} {dirPath : Bytes} {loc : Location} {d : Dir}

/-- The condition is enough. -/
theorem listsEntries_of_pathsHold (h : os.Reports) (opened : Nat)
    (hpath : os.fs.resolve dirPath = some loc) (hdir : os.fs.dirAt? loc = some d)
    (hhold : PathsHold os.fs dirPath loc d) : ListsEntries os opened dirPath loc d := by
  have hread := fun depth => readDir_entries h hpath hdir (readDir_visit h depth (opened + 1))
  -- what the loop visits is what the call returns
  have hlists : ∀ depth xs, visitEntries os.fs (visit os.fs depth)
        (os.fs.resolve (gsubSeps false dirPath)) d = some xs →
      xs = d.leaves.map (fun leaf => some (loc ++ leaf)) → ListsEntries os opened dirPath loc d := by
    intro depth xs hvisit hxs
    obtain ⟨paths, hpaths, hmap⟩ := Option.map_eq_some_iff.mp ((hread depth).trans hvisit)
    exact ⟨depth + 1, paths, hpaths, by rw [hmap, hxs]⟩
  rcases hhold with ⟨hnone, hquiet⟩ | ⟨hslash, hcalm⟩
  · obtain ⟨depth, hsubs⟩ := exists_depth
      (P := fun depth n => visit os.fs depth
        ((os.fs.resolve (gsubSeps false dirPath)).bind (target os.fs · n)) = some [])
      (fun n a b hab ha => visit_mono hab ha) (fun n hn => quiet_iff.mp (hquiet n hn))
    refine hlists depth [] (visitEntries_eq_nil.mpr ⟨files_eq_nil_of_leaves hnone, hsubs⟩) ?_
    simp [hnone]
  · have hpart : PartOf os.fs loc d := ⟨FileTree.legal_dirAt? hdir, d, hdir, fun _ _ h => h⟩
    obtain ⟨depth, hvisit⟩ := visitEntries_of_calm hpart hcalm
    refine hlists depth _ ?_ rfl
    rw [hslash]
    exact hvisit

/-- It is necessary if the path does not lead to some other place with slashes for its
backslashes, or if there is nothing to return. -/
theorem pathsHold_of_listsEntries (h : os.Reports) (opened : Nat)
    (hpath : os.fs.resolve dirPath = some loc) (hdir : os.fs.dirAt? loc = some d)
    (hbase : ∀ loc', os.fs.resolve (gsubSeps false dirPath) = some loc' →
      loc' = loc ∨ d.leaves = [])
    (hlists : ListsEntries os opened dirPath loc d) : PathsHold os.fs dirPath loc d := by
  obtain ⟨depth, paths, hpaths, hperm⟩ := hlists
  cases depth with
  | zero => exact absurd hpaths (by simp [readDir])
  | succ depth =>
      have hvisit := readDir_entries h hpath hdir (readDir_visit h depth (opened + 1))
      rw [hpaths, Option.map_some] at hvisit
      have hmem : ∀ leaf ∈ d.leaves, some (loc ++ leaf) ∈ paths.map os.fs.resolve :=
        fun leaf hleaf => hperm.mem_iff.mpr (List.mem_map_of_mem hleaf)
      by_cases hnone : d.leaves = []
      · rw [hnone, List.map_nil] at hperm
        rw [hperm.eq_nil] at hvisit
        have hsubs := (visitEntries_eq_nil.mp hvisit.symm).2
        exact .inl ⟨hnone, fun n hn => quiet_iff.mpr ⟨depth, hsubs n hn⟩⟩
      cases hslash : os.fs.resolve (gsubSeps false dirPath) with
      | none =>
          -- nothing is found from nowhere
          obtain ⟨leaf, hleaf⟩ := List.exists_mem_of_ne_nil _ hnone
          rw [hslash] at hvisit
          exact (visitEntries_visit_invariant (I := fun _ => False) (fun _ _ _ h _ => h) (by simp)
            hvisit.symm _ (hmem leaf hleaf)).elim
      | some loc' =>
          obtain rfl := (hbase loc' hslash).resolve_right hnone
          rw [hslash] at hvisit
          have hstart : ∀ l, some loc' = some l → CleanFrom loc' l := by
            rintro l ⟨⟩
            exact CleanFrom.refl loc'
          have hclean : ∀ leaf ∈ d.leaves, ∀ n ∈ leaf, bsl ∉ n := fun leaf hleaf =>
            (visitEntries_visit_invariant (I := CleanFrom loc') (fun _ _ _ => CleanFrom.target)
              hstart hvisit.symm _ (hmem leaf hleaf)).below
          have hpart : PartOf os.fs loc' d := ⟨FileTree.legal_dirAt? hdir, d, hdir, fun _ _ h => h⟩
          refine .inr ⟨hslash, (calm_of_visitEntries hpart hclean hvisit.symm).2 ?_⟩
          rw [hperm.length_eq, List.length_map]

end

/-- **The walker** lists a directory if the paths hold, and only then, unless the path leads to
another place with slashes for its backslashes and there is something to return. -/
theorem listsEntries_iff (os : System) (h : os.Reports) (opened : Nat) (dirPath : Bytes)
    (loc : Location) (d : Dir) (hpath : os.fs.resolve dirPath = some loc)
    (hdir : os.fs.dirAt? loc = some d) :
    (PathsHold os.fs dirPath loc d → ListsEntries os opened dirPath loc d) ∧
      ((∀ loc', os.fs.resolve (gsubSeps false dirPath) = some loc' → loc' = loc ∨ d.leaves = []) →
        (ListsEntries os opened dirPath loc d ↔ PathsHold os.fs dirPath loc d)) := by
  have henough := listsEntries_of_pathsHold h opened hpath hdir
  exact ⟨henough, fun hbase => ⟨pathsHold_of_listsEntries h opened hpath hdir hbase, henough⟩⟩

/-- A file system that reports the type of every entry, and opens every directory. -/
def System.ofTree (fs : FileTree) : System where
  fs := fs
  dType _ _
    | .file => 8
    | .dir _ => dtDir
  opens _ _ := true

theorem reports_ofTree (fs : FileTree) : (System.ofTree fs).Reports where
  dType_iff _ _ node := by cases node <;> simp [System.ofTree, dtDir]
  opens _ _ _ := rfl

/-- The directory `src`, with the file `main.c` and the directory `a`, with the file `b`. -/
def cleanTree : FileTree where
  root := .dir (ascii "src")
    (.file (ascii "main.c") (.dir (ascii "a") (.file (ascii "b") .empty) .empty)) .empty
  legal := by decide
  cwd := []

theorem listsEntries_cleanTree :
    ListsEntries (.ofTree cleanTree) 0 (ascii "./src/") [ascii "src"]
        (.file (ascii "main.c") (.dir (ascii "a") (.file (ascii "b") .empty) .empty)) ↔
      PathsHold cleanTree (ascii "./src/") [ascii "src"]
        (.file (ascii "main.c") (.dir (ascii "a") (.file (ascii "b") .empty) .empty)) := by
  have hbase : cleanTree.resolve (gsubSeps false (ascii "./src/")) = some [ascii "src"] := by decide
  have hiff := listsEntries_iff (.ofTree cleanTree) (reports_ofTree cleanTree) 0 (ascii "./src/")
    [ascii "src"] (.file (ascii "main.c") (.dir (ascii "a") (.file (ascii "b") .empty) .empty))
    (by decide) (by decide)
  exact hiff.2 fun loc' h => .inl (Option.some.inj (h.symm.trans hbase))

/-- The file `a\b`, in the working directory. -/
def backslashTree : FileTree where
  root := .file (ascii "a\\b") .empty
  legal := by decide
  cwd := []

/-- The path that is returned for it leads nowhere. -/
theorem not_listsEntries_backslash :
    readDir (.ofTree backslashTree) 1 0 (ascii ".") (some true) = some [ascii "./a/b"] ∧
      ¬ ListsEntries (.ofTree backslashTree) 0 (ascii ".") []
          (.file (ascii "a\\b") .empty) := by
  refine ⟨by decide, ?_⟩
  rintro ⟨depth, paths, hpaths, hperm⟩
  cases depth with
  | zero => exact absurd hpaths (by simp [readDir])
  | succ depth =>
      have hone : readDir (.ofTree backslashTree) (depth + 1) 0 (ascii ".") (some true) =
          some [ascii "./a/b"] := rfl
      obtain rfl : [ascii "./a/b"] = paths := Option.some.inj (hone.symm.trans hpaths)
      have hmem := hperm.mem_iff.mp (List.mem_singleton_self (backslashTree.resolve (ascii "./a/b")))
      exact absurd hmem (by decide)

end Tmg.Nob
