import Mathlib.Data.List.Infix
import RemoteDevbox.Lib.Js.Pattern

namespace RemoteDevbox.Client.Excludes

open Js (Pattern)
open Js.Pattern (Matches GroupMatches exec exec_eq_some exec_eq_none matches_star_cls)

/-!
# What the excludes leave out of a seed

The client asks a filter at each entry on its way down and tests the name with a regular
expression. The box lists all paths and tests each component with the shell's patterns.
-/

abbrev Name := List Char

abbrev Path := List Name

/-- The entries of a directory. -/
inductive Tree where
  | done
  | file (name : Name) (rest : Tree)
  | dir (name : Name) (entries rest : Tree)

def special (c : Char) : Bool := "?[]\\^$+()\x7b\x7d|/".toList.contains c

/-- A pattern with no letter of a meaning but `*`, and the dot that the client escapes. -/
structure Exclude where
  pattern : Name
  plain : pattern.any special = false

/-! ## On the client -/

/-- What `.` stands for in a regular expression. -/
def dot (c : Char) : Bool := c != '\n' && c != '\r' && c != '\u2028' && c != '\u2029'

/-- What `pattern.replace(/[.]/g, "\\.").replace(/\*/g, ".*") + "$"` denotes. -/
def body : Name → Pattern
  | [] => .finish
  | c :: pattern =>
      if c = '*' then .seq (.star (.cls dot)) (body pattern)
      else .seq (Pattern.chr c) (body pattern)

/-- `new RegExp("^" + …).test(name)`; it can match at the start only. -/
def test (pattern name : Name) : Bool := (exec [.seq .start (body pattern)] true name).isSome

def «matches» (name : Name) (exclude : Exclude) : Bool :=
  if '*' ∈ exclude.pattern then test exclude.pattern name else name == exclude.pattern

/-- What `cpSync` copies below the directory `rel`. -/
def copied (skip : Name → Bool) (rel : Path) : Tree → List Path
  | .done => []
  | .file name rest => (if skip name then [] else [rel ++ [name]]) ++ copied skip rel rest
  | .dir name entries rest =>
      (if skip name then [] else (rel ++ [name]) :: copied skip (rel ++ [name]) entries) ++
        copied skip rel rest

/-- The paths that `seedFromClient` copies of the directory `root`. -/
def seedFromClient (excludes : List Exclude) (root : Name) (tree : Tree) : List Path :=
  let skip name := excludes.any («matches» name)
  if skip root then [] else copied skip [] tree

/-! ## On the box -/

/-- `case "$comp" in $pat)`, where `*` is the only letter of a meaning. -/
def glob : Name → Name → Bool
  | [], name => name.isEmpty
  | c :: pattern, name =>
      if c = '*' then name.tails.any (glob pattern)
      else
        match name with
        | [] => false
        | d :: name => d == c && glob pattern name

/-- `find . -mindepth 1`, without the `.` in front. -/
def find (rel : Path) : Tree → List Path
  | .done => []
  | .file name rest => (rel ++ [name]) :: find rel rest
  | .dir name entries rest =>
      (rel ++ [name]) :: (find (rel ++ [name]) entries ++ find rel rest)

def skip (excludes : List Exclude) (comp : Name) : Bool :=
  excludes.any fun exclude ↦ glob exclude.pattern comp

/-- The paths that the seed of the box copies. -/
def boxSeed (excludes : List Exclude) (tree : Tree) : List Path :=
  (find [] tree).filter fun path ↦ !(['.'] :: path).any (skip excludes)

/-! ## The two agree -/

def Tree.names : Tree → List Name
  | .done => []
  | .file name rest => name :: rest.names
  | .dir name entries rest => name :: (entries.names ++ rest.names)

/-- Names of one line, which the unquoted `$rel` of the box does not expand. -/
def Named (tree : Tree) : Prop :=
  ∀ name ∈ tree.names, name.all dot = true ∧ name.any "*?[\\".toList.contains = false

/-- The paths with no component that an exclude names. -/
def kept (excludes : List Exclude) (tree : Tree) : List Path :=
  (find [] tree).filter fun path ↦ !path.any (skip excludes)

variable {pattern name : Name}

theorem glob_literal (h : '*' ∉ pattern) : glob pattern name = true ↔ name = pattern := by
  induction pattern generalizing name with
  | nil => exact List.isEmpty_iff
  | cons c pattern ih =>
      have hc : ¬ c = '*' := fun hc ↦ h (hc ▸ List.mem_cons_self)
      have hrest : '*' ∉ pattern := fun hmem ↦ h (List.mem_cons_of_mem c hmem)
      rw [glob.eq_def]
      dsimp only
      rw [if_neg hc]
      cases name with
      | nil => exact iff_of_false Bool.false_ne_true nofun
      | cons d name =>
          dsimp only
          rw [Bool.and_eq_true, beq_iff_eq, ih hrest, List.cons.injEq]

theorem matches_body {first : Bool} {rest : Name} (h : ∀ c ∈ name, dot c = true) :
    Matches (body pattern) first name rest ↔ rest = [] ∧ glob pattern name = true := by
  induction pattern generalizing first name with
  | nil =>
      change rest = [] ∧ name = [] ↔ rest = [] ∧ name.isEmpty = true
      rw [List.isEmpty_iff]
  | cons c pattern ih =>
      rw [body, glob.eq_def]
      dsimp only
      split
      next hstar =>
        rw [List.any_eq_true]
        constructor
        · rintro ⟨u, v, rfl, -, hv⟩
          obtain ⟨hrest, hglob⟩ := (ih fun c hc ↦ h c (List.mem_append_right u hc)).mp hv
          exact ⟨hrest, v, (List.mem_tails v (u ++ v)).mpr (List.suffix_append u v), hglob⟩
        · rintro ⟨hrest, v, htail, hglob⟩
          obtain ⟨u, rfl⟩ := (List.mem_tails v name).mp htail
          have hu : ∀ c ∈ u, dot c = true := fun c hc ↦ h c (List.mem_append_left v hc)
          refine ⟨u, v, rfl, matches_star_cls.mpr hu, ?_⟩
          exact (ih fun c hc ↦ h c (List.mem_append_right u hc)).mpr ⟨hrest, hglob⟩
      next hstar =>
        constructor
        · rintro ⟨u, v, rfl, ⟨d, hd, rfl⟩, hv⟩
          obtain ⟨hrest, hglob⟩ := (ih fun c hc ↦ h c (List.mem_cons_of_mem d hc)).mp hv
          exact ⟨hrest, (Bool.and_eq_true _ _).mpr ⟨hd, hglob⟩⟩
        · cases name with
          | nil => exact fun hboth ↦ absurd hboth.2 Bool.false_ne_true
          | cons d name =>
              rintro ⟨hrest, hboth⟩
              obtain ⟨hd, hglob⟩ := (Bool.and_eq_true _ _).mp hboth
              refine ⟨[d], name, rfl, ⟨d, hd, rfl⟩, ?_⟩
              exact (ih fun c hc ↦ h c (List.mem_cons_of_mem d hc)).mpr ⟨hrest, hglob⟩

theorem test_iff (h : ∀ c ∈ name, dot c = true) :
    test pattern name = true ↔ glob pattern name = true := by
  have hmatch : ∀ {g rest : Name}, Matches (.seq .start (body pattern)) true g rest ↔
      Matches (body pattern) true g rest := by
    intro g rest
    constructor
    · rintro ⟨u, v, rfl, ⟨-, rfl⟩, hv⟩
      exact hv
    · exact fun hg ↦ ⟨[], g, rfl, ⟨rfl, rfl⟩, hg⟩
  constructor
  · intro htest
    obtain ⟨⟨groups, rest⟩, hexec⟩ := Option.isSome_iff_exists.mp htest
    obtain ⟨hsplit, g, others, rfl, hg, rfl⟩ := exec_eq_some hexec
    have hsplit : g ++ rest = name := by
      rw [List.flatten_singleton] at hsplit
      exact hsplit
    subst hsplit
    obtain ⟨rfl, hglob⟩ :=
      (matches_body fun c hc ↦ h c (List.mem_append_left rest hc)).mp (hmatch.mp hg)
    rw [List.append_nil]
    exact hglob
  · intro hglob
    by_contra hnone
    have hexec : exec [.seq .start (body pattern)] true name = none :=
      Option.not_isSome_iff_eq_none.mp hnone
    have hsplit : [name].flatten ++ [] = name := by rw [List.flatten_singleton, List.append_nil]
    have hgroup : Matches (.seq .start (body pattern)) true name [] :=
      hmatch.mpr ((matches_body h).mpr ⟨rfl, hglob⟩)
    exact exec_eq_none hexec ⟨hsplit, name, [], rfl, hgroup, rfl⟩

theorem matches_iff {exclude : Exclude} (h : ∀ c ∈ name, dot c = true) :
    «matches» name exclude = true ↔ glob exclude.pattern name = true := by
  rw [«matches»]
  split
  next => exact test_iff h
  next hstar => rw [glob_literal hstar, beq_iff_eq]

theorem prefix_of_find {rel path : Path} {tree : Tree} (h : path ∈ find rel tree) :
    rel <+: path := by
  induction tree generalizing rel with
  | done => exact absurd h List.not_mem_nil
  | file name rest ih =>
      rcases List.mem_cons.mp h with rfl | h
      · exact List.prefix_append rel [name]
      · exact ih h
  | dir name entries rest ihEntries ihRest =>
      rcases List.mem_cons.mp h with rfl | h
      · exact List.prefix_append rel [name]
      rcases List.mem_append.mp h with h | h
      · exact (List.prefix_append rel [name]).trans (ihEntries h)
      · exact ihRest h

theorem any_concat {skip : Name → Bool} {rel : Path} (h : rel.any skip = false) (name : Name) :
    (rel ++ [name]).any skip = skip name := by
  rw [List.any_append, h, List.any_cons, List.any_nil, Bool.false_or, Bool.or_false]

/-- Below an excluded directory the filter on the whole paths leaves nothing. -/
theorem filter_find_eq_nil {skip : Name → Bool} {rel : Path} (h : rel.any skip = true)
    (tree : Tree) : ((find rel tree).filter fun path ↦ !path.any skip) = [] := by
  refine List.filter_eq_nil_iff.mpr fun path hpath ↦ ?_
  have hany : path.any skip = true := by
    obtain ⟨more, rfl⟩ := prefix_of_find hpath
    rw [List.any_append, h, Bool.true_or]
  rw [hany]
  exact Bool.false_ne_true

/-- To ask at each entry on the way down is to ask for each component of the path. -/
theorem copied_eq_filter {skip : Name → Bool} {rel : Path} (h : rel.any skip = false)
    (tree : Tree) : copied skip rel tree = (find rel tree).filter fun path ↦ !path.any skip := by
  induction tree generalizing rel with
  | done => rfl
  | file name rest ih =>
      rw [copied, find, List.filter_cons, any_concat h, ih h]
      cases skip name <;> rfl
  | dir name entries rest ihEntries ihRest =>
      have hdir : (rel ++ [name]).any skip = skip name := any_concat h name
      rw [copied, find, List.filter_cons, List.filter_append, hdir, ihRest h]
      cases hskip : skip name with
      | false =>
          rw [ihEntries (hdir.trans hskip)]
          rfl
      | true =>
          rw [filter_find_eq_nil (hdir.trans hskip)]
          rfl

theorem mem_names_of_find {rel path : Path} {tree : Tree} {name : Name}
    (h : path ∈ find rel tree) (hname : name ∈ path) :
    name ∈ rel ∨ name ∈ tree.names := by
  have hconcat : ∀ {rel : Path} {first : Name} {names : List Name}, name ∈ rel ++ [first] →
      name ∈ rel ∨ name ∈ first :: names := by
    intro rel first names hmem
    rcases List.mem_append.mp hmem with hrel | hfirst
    · exact .inl hrel
    · exact .inr (List.mem_singleton.mp hfirst ▸ List.mem_cons_self)
  induction tree generalizing rel with
  | done => exact absurd h List.not_mem_nil
  | file first rest ih =>
      rcases List.mem_cons.mp h with rfl | h
      · exact hconcat hname
      · exact (ih h).imp_right (List.mem_cons_of_mem first)
  | dir first entries rest ihEntries ihRest =>
      rcases List.mem_cons.mp h with rfl | h
      · exact hconcat hname
      rcases List.mem_append.mp h with h | h
      · rcases ihEntries h with hrel | hentries
        · exact hconcat hrel
        · exact .inr (List.mem_cons_of_mem first (List.mem_append_left _ hentries))
      · exact (ihRest h).imp_right fun hrest ↦
          List.mem_cons_of_mem first (List.mem_append_right _ hrest)

theorem seedFromClient_eq {excludes : List Exclude} {tree : Tree} (h : Named tree) (root : Name) :
    seedFromClient excludes root tree =
      if excludes.any («matches» root) then [] else kept excludes tree := by
  rw [seedFromClient]
  dsimp only
  congr 1
  rw [copied_eq_filter rfl, kept]
  refine List.filter_congr fun path hpath ↦ ?_
  congr 1
  have hsame : ∀ name ∈ path, excludes.any («matches» name) = skip excludes name := by
    intro name hname
    have hmem : name ∈ tree.names :=
      (mem_names_of_find hpath hname).resolve_left List.not_mem_nil
    rw [skip]
    congr 1
    funext exclude
    exact Bool.eq_iff_iff.mpr (matches_iff (List.all_eq_true.mp (h name hmem).1))
  refine Bool.eq_iff_iff.mpr ?_
  rw [List.any_eq_true, List.any_eq_true]
  constructor
  · rintro ⟨name, hname, hskip⟩
    exact ⟨name, hname, (hsame name hname).symm.trans hskip⟩
  · rintro ⟨name, hname, hskip⟩
    exact ⟨name, hname, (hsame name hname).trans hskip⟩

theorem boxSeed_eq (excludes : List Exclude) (tree : Tree) :
    boxSeed excludes tree =
      if skip excludes ['.'] then [] else kept excludes tree := by
  rw [boxSeed]
  split
  next hdot =>
    refine List.filter_eq_nil_iff.mpr fun path _ ↦ ?_
    rw [List.any_cons, hdot, Bool.true_or]
    exact Bool.false_ne_true
  next hdot =>
    refine List.filter_congr fun path _ ↦ ?_
    rw [List.any_cons, Bool.eq_false_iff.mpr hdot, Bool.false_or]

/-- The box asks for the name `.` where the client asks for the name of the directory. But for
that, both copy the paths with no excluded component. -/
theorem seeds_agree_iff {excludes : List Exclude} {root : Name} {tree : Tree}
    (hnames : Named tree) :
    (seedFromClient excludes root tree = boxSeed excludes tree ↔
      excludes.any («matches» root) = skip excludes ['.'] ∨ kept excludes tree = []) ∧
    (seedFromClient excludes root tree ≠ boxSeed excludes tree →
      seedFromClient excludes root tree = [] ∨ boxSeed excludes tree = []) := by
  rw [seedFromClient_eq hnames, boxSeed_eq]
  cases excludes.any («matches» root) <;> cases skip excludes ['.']
  · exact ⟨iff_of_true rfl (.inl rfl), fun hne ↦ absurd rfl hne⟩
  · exact ⟨⟨.inr, fun h ↦ h.resolve_left Bool.false_ne_true⟩, fun _ ↦ .inr rfl⟩
  · exact ⟨⟨fun h ↦ .inr h.symm, fun h ↦ (h.resolve_left Bool.false_ne_true.symm).symm⟩,
      fun _ ↦ .inl rfl⟩
  · exact ⟨iff_of_true rfl (.inl rfl), fun hne ↦ absurd rfl hne⟩

/-- FileZilla's excludes, on a directory with a queue and a lock below it. -/
theorem filezilla_seeds_agree :
    let excludes : List Exclude :=
      [⟨"queue.sqlite3".toList, by decide⟩, ⟨"lockfile".toList, by decide⟩,
        ⟨"*.lock".toList, by decide⟩]
    let tree := Tree.file "queue.sqlite3".toList
      (.dir "certs".toList (.file "a.lock".toList (.file "b".toList .done)) .done)
    seedFromClient excludes "filezilla".toList tree = boxSeed excludes tree :=
  (seeds_agree_iff (by unfold Named; decide +kernel)).1.mpr (.inl (by decide +kernel))

end RemoteDevbox.Client.Excludes
