import RemoteDevbox.Lib.Js.Pattern
import RemoteDevbox.Lib.Js.Text
import RemoteDevbox.Lib.Js.Value
import RemoteDevbox.Lib.Lists
import Mathlib.Tactic.Common

namespace RemoteDevbox.Box.OmpGate

open Js Js.Pattern

/-!
# Toolchain paths through the gate

The extension takes the directory off a gated tool that a command names by its full
path, so that the shell finds the tool on `PATH` and with it the gate.
-/

/-- `[^\s;&|]` -/
def word (c : Char) : Bool := !Js.Text.isSpace c && c != ';' && c != '&' && c != '|'

def nameHead (c : Char) : Bool := Regex.isUpper c || Regex.isLower c || c == '_'

def nameTail (c : Char) : Bool := nameHead c || Regex.isDigit c

/-- `[;|\n]` -/
def ends (c : Char) : Bool := c == ';' || c == '|' || c == '\n'

/-! ## The pattern -/

/-- `^|(?:&&|\|\||[;|\n])\s*` -/
def BOUNDARY : Pattern :=
  .alt .start (.seq (oneOf (lit "&&".toList) [lit "||".toList, .cls ends])
    (.star (.cls Js.Text.isSpace)))

/-- `[A-Za-z_][A-Za-z0-9_]*=[^\s;&|]+\s+` -/
def ASSIGNMENT : Pattern :=
  .seq (.cls nameHead) (.seq (.star (.cls nameTail)) (.seq (chr '=')
    (.seq (plus (.cls word)) (plus (.cls Js.Text.isSpace)))))

def DIRECTORY : Pattern := .seq (chr '/') (.seq (plus (.cls word)) (chr '/'))

def EXECUTABLE : Pattern :=
  oneOf (.seq (lit "bun".toList) (opt (chr 'x')))
    [lit "node".toList, lit "npm".toList, lit "npx".toList, lit "pnpm".toList,
      lit "yarn".toList, lit "tsc".toList, lit "turbo".toList, lit "next".toList,
      lit "prisma".toList, lit "cargo".toList]

/-- `(?=\s|$)` -/
def FOLLOWED : Pattern := .ahead (.alt (.cls Js.Text.isSpace) .finish)

def COMMAND_BOUNDARY : List Pattern :=
  [BOUNDARY, .star ASSIGNMENT, DIRECTORY, EXECUTABLE, FOLLOWED]

/-- The callback of `replace`. -/
def withoutDirectory : List (List Char) → List Char
  | [boundary, assignments, _, executable, _] => boundary ++ assignments ++ executable
  | groups => groups.flatten

def routeToolchainExecutablesThroughGate (command : List Char) : List Char :=
  replace COMMAND_BOUNDARY withoutDirectory command

/-- What the extension answers to a tool call: the input to use instead, if any. -/
def ompHeavyGate (categories : Option String) (toolName : String) (input : Fields) :
    Option Fields :=
  if toolName ≠ "bash" ∨ categories.getD "" = "" then none
  else
    match input.lookup "command" with
    | .str command =>
        let routed := String.ofList (routeToolchainExecutablesThroughGate command.toList)
        if routed = command then none
        else some (input.set "command" (.str routed))
    | _ => none

/-! ## Command position -/

/-- What separates two commands, with the space behind it. -/
def Break (b : List Char) : Prop :=
  ∃ sep blanks, b = sep ++ blanks ∧
    (sep = "&&".toList ∨ sep = "||".toList ∨ ∃ c, ends c = true ∧ sep = [c]) ∧
    ∀ c ∈ blanks, Js.Text.isSpace c = true

def Name (n : List Char) : Prop :=
  ∃ c n', n = c :: n' ∧ nameHead c = true ∧ ∀ d ∈ n', nameTail d = true

def Assignment (a : List Char) : Prop :=
  ∃ n x blanks, a = n ++ '=' :: x ++ blanks ∧ Name n ∧ x ≠ [] ∧ (∀ c ∈ x, word c = true) ∧
    blanks ≠ [] ∧ ∀ c ∈ blanks, Js.Text.isSpace c = true

inductive Assignments : List Char → Prop
  | none : Assignments []
  | more {a rest : List Char} (ha : Assignment a) (hrest : Assignments rest) :
      Assignments (a ++ rest)

/-- What follows `u` is where a command begins; whether `u` begins the text is the
first argument. -/
def Opens (fresh : Bool) (u : List Char) : Prop :=
  ∃ v b assigned, u = v ++ b ++ assigned ∧ ((fresh = true ∧ v = [] ∧ b = []) ∨ Break b) ∧
    Assignments assigned

def Directory (d : List Char) : Prop :=
  ∃ x, d = '/' :: x ++ ['/'] ∧ x ≠ [] ∧ ∀ c ∈ x, word c = true

def EXECUTABLES : List (List Char) :=
  ["bun".toList, "bunx".toList, "node".toList, "npm".toList, "npx".toList, "pnpm".toList,
    "yarn".toList, "tsc".toList, "turbo".toList, "next".toList, "prisma".toList,
    "cargo".toList]

def Ends (rest : List Char) : Prop := rest = [] ∨ ∃ c r, rest = c :: r ∧ Js.Text.isSpace c = true

/-- A text that begins with the full path of a gated tool. -/
def Headed (s : List Char) : Prop :=
  ∃ d tool rest, s = d ++ tool ++ rest ∧ Directory d ∧ tool ∈ EXECUTABLES ∧ Ends rest

/-- The text from a position on, read from left to right: a directory goes exactly where
a command begins with the full path of a gated tool. -/
inductive Routed : List Char → List Char → List Char → Prop
  | done {u : List Char} : Routed u [] []
  | keep {u s t : List Char} {c : Char} (hplace : ¬(Opens true u ∧ Headed (c :: s)))
      (hrest : Routed (u ++ [c]) s t) : Routed u (c :: s) (c :: t)
  | cut {u d tool rest t : List Char} (hopens : Opens true u) (hd : Directory d)
      (htool : tool ∈ EXECUTABLES) (hends : Ends rest)
      (hrest : Routed (u ++ d ++ tool) rest t) : Routed u (d ++ tool ++ rest) (tool ++ t)

/-! ## What the pattern matches -/

section Matching

variable {first : Bool} {w rest : List Char}

theorem matches_boundary : Matches BOUNDARY first w rest ↔ (first = true ∧ w = []) ∨ Break w := by
  refine or_congr Iff.rfl ?_
  constructor
  · rintro ⟨sep, blanks, rfl, hsep, hblanks⟩
    refine ⟨sep, blanks, rfl, ?_, matches_star_cls.mp hblanks⟩
    obtain ⟨q, hq, hmatch⟩ := matches_oneOf.mp hsep
    simp only [List.mem_cons, List.not_mem_nil, or_false] at hq
    rcases hq with rfl | rfl | rfl
    · exact .inl (matches_lit.mp hmatch)
    · exact .inr (.inl (matches_lit.mp hmatch))
    · exact .inr (.inr hmatch)
  · rintro ⟨sep, blanks, rfl, hsep, hblanks⟩
    refine ⟨sep, blanks, rfl, matches_oneOf.mpr ?_, matches_star_cls.mpr hblanks⟩
    rcases hsep with rfl | rfl | hsep
    · exact ⟨lit "&&".toList, by simp, matches_lit.mpr rfl⟩
    · exact ⟨lit "||".toList, by simp, matches_lit.mpr rfl⟩
    · exact ⟨.cls ends, by simp, hsep⟩

theorem matches_assignment : Matches ASSIGNMENT first w rest ↔ Assignment w := by
  constructor
  · rintro ⟨_, _, rfl, ⟨c, hc, rfl⟩, n', _, rfl, hn', _, _, rfl, ⟨d, hd, rfl⟩, x, blanks, rfl,
      hx, hblanks⟩
    have hdeq : d = '=' := by simpa using hd
    obtain ⟨hxne, hx⟩ := matches_plus_cls.mp hx
    obtain ⟨hblanksne, hblanks⟩ := matches_plus_cls.mp hblanks
    refine ⟨c :: n', x, blanks, ?_, ⟨c, n', rfl, hc, matches_star_cls.mp hn'⟩, hxne, hx,
      hblanksne, hblanks⟩
    simp [hdeq]
  · rintro ⟨n, x, blanks, rfl, ⟨c, n', rfl, hc, hn'⟩, hxne, hx, hblanksne, hblanks⟩
    refine ⟨[c], n' ++ '=' :: x ++ blanks, by simp, ⟨c, hc, rfl⟩, n', '=' :: x ++ blanks,
      by simp, matches_star_cls.mpr hn', ['='], x ++ blanks, by simp, ⟨'=', by simp, rfl⟩, x,
      blanks, rfl, matches_plus_cls.mpr ⟨hxne, hx⟩, matches_plus_cls.mpr ⟨hblanksne, hblanks⟩⟩

theorem Assignment.ne_nil {a : List Char} (h : Assignment a) : a ≠ [] := by
  obtain ⟨n, x, blanks, rfl, -⟩ := h
  simp

theorem matches_assignments :
    Matches (.star ASSIGNMENT) first w rest ↔ Assignments w := by
  constructor
  · intro h
    induction (h : Repeated (Matches ASSIGNMENT) first w rest) with
    | done => exact .none
    | more hne hone hmore ih => exact .more (matches_assignment.mp hone) ih
  · intro h
    induction h generalizing first with
    | none => exact Repeated.done
    | more ha hrest ih => exact Repeated.more ha.ne_nil (matches_assignment.mpr ha) ih

theorem matches_directory : Matches DIRECTORY first w rest ↔ Directory w := by
  constructor
  · rintro ⟨_, _, rfl, ⟨c, hc, rfl⟩, x, _, rfl, hx, d, hd, rfl⟩
    have hcs : c = '/' := by simpa using hc
    have hds : d = '/' := by simpa using hd
    subst hcs hds
    exact ⟨x, rfl, matches_plus_cls.mp hx⟩
  · rintro ⟨x, rfl, hx⟩
    exact ⟨['/'], x ++ ['/'], rfl, ⟨'/', by simp, rfl⟩, x, ['/'], rfl, matches_plus_cls.mpr hx,
      '/', by simp, rfl⟩

theorem matches_bun : Matches (.seq (lit "bun".toList) (opt (chr 'x'))) first w rest ↔
    w = "bun".toList ∨ w = "bunx".toList := by
  constructor
  · rintro ⟨u, v, rfl, hu, ⟨c, hc, rfl⟩ | rfl⟩
    · have hcx : c = 'x' := by simpa using hc
      rw [matches_lit.mp hu, hcx]
      exact .inr rfl
    · rw [matches_lit.mp hu]
      exact .inl rfl
  · rintro (rfl | rfl)
    · exact ⟨"bun".toList, [], rfl, matches_lit.mpr rfl, .inr rfl⟩
    · exact ⟨"bun".toList, ['x'], rfl, matches_lit.mpr rfl, .inl ⟨'x', by simp, rfl⟩⟩

theorem matches_executable : Matches EXECUTABLE first w rest ↔ w ∈ EXECUTABLES := by
  rw [EXECUTABLE, matches_oneOf]
  simp only [List.mem_cons, List.not_mem_nil, or_false, exists_eq_or_imp, exists_eq_left,
    matches_lit, matches_bun, EXECUTABLES, or_assoc]

theorem matches_followed : Matches FOLLOWED first w rest ↔ w = [] ∧ Ends rest := by
  refine and_congr Iff.rfl ?_
  constructor
  · rintro ⟨u, v, rfl, ⟨c, hc, rfl⟩ | ⟨rfl, rfl⟩⟩
    · exact .inr ⟨c, v, rfl, hc⟩
    · exact .inl rfl
  · rintro (rfl | ⟨c, r, rfl, hc⟩)
    · exact ⟨[], [], rfl, .inr ⟨rfl, rfl⟩⟩
    · exact ⟨[c], r, rfl, .inl ⟨c, hc, rfl⟩⟩

/-- A match of the whole pattern, group by group. -/
theorem groupMatches_iff {groups : List (List Char)} :
    GroupMatches COMMAND_BOUNDARY first groups rest ↔
      ∃ b assigned d tool, groups = [b, assigned, d, tool, []] ∧
        ((first = true ∧ b = []) ∨ Break b) ∧ Assignments assigned ∧ Directory d ∧
        tool ∈ EXECUTABLES ∧ Ends rest := by
  simp only [COMMAND_BOUNDARY, GroupMatches, matches_boundary, matches_assignments,
    matches_directory, matches_executable, matches_followed]
  constructor
  · rintro ⟨b, _, rfl, hb, assigned, _, rfl, ha, d, _, rfl, hd, tool, _, rfl, htool, _, _, rfl,
      ⟨rfl, hends⟩, rfl⟩
    exact ⟨b, assigned, d, tool, rfl, hb, ha, hd, htool, hends⟩
  · rintro ⟨b, assigned, d, tool, rfl, hb, ha, hd, htool, hends⟩
    exact ⟨b, _, rfl, hb, assigned, _, rfl, ha, d, _, rfl, hd, tool, _, rfl, htool, [], [], rfl,
      ⟨rfl, hends⟩, rfl⟩

end Matching

/-! ## Reading letter by letter -/

inductive Mode where
  | start
  | command
  /-- Behind a single `&`. -/
  | amp
  | amps
  | name
  | equals
  | value
  | argument
deriving DecidableEq

def Mode.opens : Mode → Bool
  | .start | .command | .amps => true
  | _ => false

def Mode.nextWord (c : Char) : Mode → Mode
  | .start | .command | .amps => if nameHead c then .name else .argument
  | .name => if nameTail c then .name else if c = '=' then .equals else .argument
  | .equals | .value => .value
  | .amp | .argument => .argument

def Mode.next (m : Mode) (c : Char) : Mode :=
  if ends c then .command
  else if c = '&' then if m = .amp ∨ m = .amps then .amps else .amp
  else if Js.Text.isSpace c then
    if m = .command ∨ m = .amps ∨ m = .value then .command else .argument
  else m.nextWord c

def Mode.after (m : Mode) (u : List Char) : Mode := u.foldl Mode.next m

theorem Mode.after_append (m : Mode) (u v : List Char) :
    m.after (u ++ v) = (m.after u).after v := List.foldl_append

theorem Mode.after_concat (m : Mode) (u : List Char) (c : Char) :
    m.after (u ++ [c]) = (m.after u).next c := m.after_append u [c]

/-! Which letters are which. -/

theorem word_iff {c : Char} :
    word c = true ↔ Js.Text.isSpace c = false ∧ ends c = false ∧ c ≠ '&' := by
  have hnewline : c = '\n' → Js.Text.isSpace c = true := fun h ↦ h ▸ rfl
  simp only [word, ends, Bool.and_eq_true, bne_iff_ne, ne_eq, Bool.not_eq_true',
    Bool.or_eq_false_iff, beq_eq_false_iff_ne]
  constructor
  · rintro ⟨⟨⟨hspace, hsemi⟩, hamp⟩, hbar⟩
    exact ⟨hspace, ⟨⟨hsemi, hbar⟩, fun h ↦ by simp [hnewline h] at hspace⟩, hamp⟩
  · rintro ⟨hspace, ⟨⟨hsemi, hbar⟩, -⟩, hamp⟩
    exact ⟨⟨⟨hspace, hsemi⟩, hamp⟩, hbar⟩

theorem ascii_of_nameTail {c : Char} (h : nameTail c = true) : c.toNat < 128 := by
  cases halnum : Regex.isAlnum c with
  | true => exact Regex.isAlnum_lt halnum
  | false =>
      simp only [Regex.isAlnum, Bool.or_eq_false_iff] at halnum
      simp only [nameTail, nameHead, halnum, Bool.false_or, Bool.or_false, beq_iff_eq] at h
      rw [h]
      decide

theorem word_of_nameTail {c : Char} (h : nameTail c = true) : word c = true ∧ c ≠ '/' := by
  have hascii : nameTail c = true → word c = true ∧ c ≠ '/' :=
    Regex.ascii_forall (P := fun c ↦ nameTail c = true → word c = true ∧ c ≠ '/') (by decide)
      (ascii_of_nameTail h)
  exact hascii h

theorem nameTail_of_nameHead {c : Char} (h : nameHead c = true) : nameTail c = true := by
  rw [nameTail, h, Bool.true_or]

section Steps

variable {m : Mode} {c : Char}

theorem Mode.next_ends (h : ends c = true) : m.next c = .command := by
  rw [Mode.next, if_pos h]

theorem Mode.next_amp : m.next '&' = if m = .amp ∨ m = .amps then .amps else .amp := rfl

theorem Mode.next_word (h : word c = true) : m.next c = m.nextWord c := by
  obtain ⟨hspace, hends, hamp⟩ := word_iff.mp h
  rw [Mode.next, hends, hspace, if_neg Bool.false_ne_true, if_neg hamp,
    if_neg Bool.false_ne_true]

theorem Mode.next_space (h : Js.Text.isSpace c = true) (hends : ends c = false) :
    m.next c = if m = .command ∨ m = .amps ∨ m = .value then .command else .argument := by
  have hamp : c ≠ '&' := by
    rintro rfl
    cases h
  rw [Mode.next, hends, h, if_neg Bool.false_ne_true, if_neg hamp, if_pos rfl]

/-- Space keeps a place where a command may begin, unless this is the very start. -/
theorem Mode.next_blank (h : Js.Text.isSpace c = true)
    (hm : m = .command ∨ m = .amps ∨ m = .value) : m.next c = .command := by
  cases hends : ends c with
  | true => exact Mode.next_ends hends
  | false => rw [Mode.next_space h hends, if_pos hm]

end Steps

/-! ## The mode tells whether a command may begin -/

theorem Assignments.concat {w a : List Char} (hw : Assignments w) (ha : Assignment a) :
    Assignments (w ++ a) := by
  induction hw with
  | none => simpa using Assignments.more ha .none
  | more ha' _ ih =>
      rw [List.append_assoc]
      exact .more ha' ih

theorem Assignment.blank {a : List Char} {c : Char} (h : Assignment a)
    (hc : Js.Text.isSpace c = true) : Assignment (a ++ [c]) := by
  obtain ⟨n, x, blanks, rfl, hn, hxne, hx, hblanksne, hblanks⟩ := h
  refine ⟨n, x, blanks ++ [c], by simp, hn, hxne, hx, by simp, ?_⟩
  simpa [or_imp, forall_and, hc] using hblanks

theorem Assignments.blank {w : List Char} {c : Char} (h : Assignments w) (hne : w ≠ [])
    (hc : Js.Text.isSpace c = true) : Assignments (w ++ [c]) := by
  induction h with
  | none => exact absurd rfl hne
  | @more a rest ha hrest ih =>
      cases hempty : rest with
      | nil => simpa using Assignments.more (ha.blank hc) .none
      | cons d r =>
          rw [← hempty, List.append_assoc]
          exact .more ha (ih (by rw [hempty]; exact List.cons_ne_nil d r))

section Opens

variable {fresh : Bool} {u a : List Char} {c : Char}

theorem Opens.assign (h : Opens fresh u) (ha : Assignment a) : Opens fresh (u ++ a) := by
  obtain ⟨v, b, assigned, rfl, hb, hassigned⟩ := h
  exact ⟨v, b, assigned ++ a, List.append_assoc .., hb, hassigned.concat ha⟩

theorem Opens.blank (h : Opens fresh u) (hne : u ≠ []) (hc : Js.Text.isSpace c = true) :
    Opens fresh (u ++ [c]) := by
  obtain ⟨v, b, assigned, rfl, hb, hassigned⟩ := h
  cases hempty : assigned with
  | cons d r =>
      refine ⟨v, b, assigned ++ [c], by simp [hempty], hb, hassigned.blank ?_ hc⟩
      rw [hempty]
      exact List.cons_ne_nil d r
  | nil =>
      rcases hb with ⟨-, rfl, rfl⟩ | ⟨sep, blanks, rfl, hsep, hblanks⟩
      · rw [hempty] at hne
        exact absurd rfl hne
      · refine ⟨v, sep ++ (blanks ++ [c]), [], by simp, .inr ⟨sep, blanks ++ [c], rfl, hsep, ?_⟩,
          .none⟩
        simpa [or_imp, forall_and, hc] using hblanks

theorem opens_break {sep : List Char}
    (hsep : sep = "&&".toList ∨ sep = "||".toList ∨ ∃ c, ends c = true ∧ sep = [c]) :
    Opens fresh (u ++ sep) :=
  ⟨u, sep, [], by simp, .inr ⟨sep, [], by simp, hsep, by simp⟩, .none⟩

end Opens

/-- What a mode says about the letters before it. -/
def Means (fresh : Bool) (u : List Char) : Mode → Prop
  | .start => fresh = true ∧ u = []
  | .command => Opens fresh u ∧ u ≠ []
  | .amp => ∃ v, u = v ++ ['&']
  | .amps => ∃ v, u = v ++ "&&".toList
  | .name => ∃ v n, u = v ++ n ∧ Opens fresh v ∧ Name n
  | .equals => ∃ v n, u = v ++ n ++ ['='] ∧ Opens fresh v ∧ Name n
  | .value => ∃ v n x, u = v ++ n ++ '=' :: x ∧ Opens fresh v ∧ Name n ∧ x ≠ [] ∧
      ∀ c ∈ x, word c = true
  | .argument => True

section Meaning

variable {fresh : Bool} {u : List Char} {m : Mode} {c : Char}

theorem Means.opens (h : Means fresh u m) (hm : m.opens = true) : Opens fresh u := by
  cases m with
  | start => exact ⟨[], [], [], h.2, .inl ⟨h.1, rfl, rfl⟩, .none⟩
  | command => exact h.1
  | amps =>
      obtain ⟨v, rfl⟩ := h
      exact opens_break (.inl rfl)
  | amp | name | equals | value | argument => cases hm

theorem Name.concat {n : List Char} (h : Name n) (hc : nameTail c = true) : Name (n ++ [c]) := by
  obtain ⟨d, n', rfl, hd, hn'⟩ := h
  refine ⟨d, n' ++ [c], rfl, hd, ?_⟩
  simpa [or_imp, forall_and, hc] using hn'

theorem Means.nextWord (h : Means fresh u m) (hc : word c = true) :
    Means fresh (u ++ [c]) (m.nextWord c) := by
  have hbegin : Opens fresh u →
      Means fresh (u ++ [c]) (if nameHead c then .name else .argument) := by
    intro hopens
    split
    · rename_i hhead
      exact ⟨u, [c], rfl, hopens, c, [], rfl, hhead, by simp⟩
    · trivial
  cases m with
  | start | command | amps => exact hbegin (h.opens rfl)
  | amp | argument => trivial
  | name =>
      obtain ⟨v, n, rfl, hopens, hn⟩ := h
      rw [Mode.nextWord]
      split
      · rename_i htail
        exact ⟨v, n ++ [c], List.append_assoc .., hopens, hn.concat htail⟩
      · split
        · rename_i heq
          exact ⟨v, n, by rw [heq], hopens, hn⟩
        · trivial
  | equals =>
      obtain ⟨v, n, rfl, hopens, hn⟩ := h
      exact ⟨v, n, [c], by simp, hopens, hn, by simp, by simpa using hc⟩
  | value =>
      obtain ⟨v, n, x, rfl, hopens, hn, -, hx⟩ := h
      refine ⟨v, n, x ++ [c], by simp, hopens, hn, by simp, ?_⟩
      simpa [or_imp, forall_and, hc] using hx

theorem Means.blank (h : Means fresh u m) (hm : m = .command ∨ m = .amps ∨ m = .value)
    (hc : Js.Text.isSpace c = true) : Opens fresh (u ++ [c]) := by
  rcases hm with rfl | rfl | rfl
  · exact h.1.blank h.2 hc
  · refine (h.opens rfl).blank ?_ hc
    obtain ⟨v, rfl⟩ := h
    simp
  · obtain ⟨v, n, x, rfl, hopens, hn, hxne, hx⟩ := h
    have ha : Assignment (n ++ '=' :: x ++ [c]) :=
      ⟨n, x, [c], rfl, hn, hxne, hx, by simp, by simpa using hc⟩
    simpa using hopens.assign ha

theorem Means.next (h : Means fresh u m) : Means fresh (u ++ [c]) (m.next c) := by
  rw [Mode.next]
  split
  · rename_i hends
    exact ⟨opens_break (.inr (.inr ⟨c, hends, rfl⟩)), by simp⟩
  rename_i hends
  split
  · rename_i hamp
    subst hamp
    split
    · rename_i hm
      rcases hm with rfl | rfl
      · obtain ⟨v, rfl⟩ := h
        exact ⟨v, by simp⟩
      · obtain ⟨v, rfl⟩ := h
        exact ⟨v ++ ['&'], by simp⟩
    · exact ⟨u, rfl⟩
  rename_i hamp
  split
  · rename_i hspace
    split
    · rename_i hm
      exact ⟨h.blank hm hspace, by simp⟩
    · trivial
  · rename_i hspace
    exact h.nextWord (word_iff.mpr ⟨by simpa using hspace, by simpa using hends, hamp⟩)

theorem Means.after {w : List Char} (h : Means fresh u m) : Means fresh (u ++ w) (m.after w) := by
  induction w generalizing u m with
  | nil =>
      rw [List.append_nil]
      exact h
  | cons c w ih =>
      rw [List.append_cons]
      exact ih h.next

end Meaning

section Runs

variable {m : Mode} {w : List Char}

theorem after_blanks (hm : m = .command ∨ m = .amps)
    (hw : ∀ c ∈ w, Js.Text.isSpace c = true) : m.after w = .command ∨ m.after w = .amps := by
  induction w generalizing m with
  | nil => exact hm
  | cons c w ih =>
      have hnext : m.next c = .command :=
        Mode.next_blank (hw c List.mem_cons_self) (hm.imp_right Or.inl)
      exact ih (.inl hnext) fun d hd ↦ hw d (List.mem_cons_of_mem c hd)

/-- Behind a separator a command may begin, whatever was before. -/
theorem after_break (m : Mode) (hw : Break w) : (m.after w).opens = true := by
  obtain ⟨sep, blanks, rfl, hsep, hblanks⟩ := hw
  have hopen : m.after sep = .command ∨ m.after sep = .amps := by
    rcases hsep with rfl | rfl | ⟨c, hc, rfl⟩
    · right
      have hfirst : m.next '&' = .amp ∨ m.next '&' = .amps := by
        rw [Mode.next_amp]
        split
        · exact .inr rfl
        · exact .inl rfl
      exact if_pos hfirst
    · exact .inl rfl
    · exact .inl (Mode.next_ends hc)
  rw [Mode.after_append]
  rcases after_blanks hopen hblanks with h | h <;> rw [h] <;> rfl

theorem next_of_opens {c : Char} (hm : m.opens = true) (hc : nameHead c = true) :
    m.next c = .name := by
  rw [Mode.next_word (word_of_nameTail (nameTail_of_nameHead hc)).1]
  cases m with
  | start | command | amps => exact if_pos hc
  | amp | name | equals | value | argument => cases hm

theorem after_nameTails (hw : ∀ c ∈ w, nameTail c = true) : Mode.name.after w = .name := by
  induction w with
  | nil => rfl
  | cons c w ih =>
      have hc := hw c List.mem_cons_self
      have hnext : Mode.name.next c = .name := by
        rw [Mode.next_word (word_of_nameTail hc).1]
        exact if_pos hc
      exact (congrArg (Mode.after · w) hnext).trans
        (ih fun d hd ↦ hw d (List.mem_cons_of_mem c hd))

theorem after_name (hm : m.opens = true) (hw : Name w) : m.after w = .name := by
  obtain ⟨c, n, rfl, hc, hn⟩ := hw
  exact (congrArg (Mode.after · n) (next_of_opens hm hc)).trans (after_nameTails hn)

theorem after_words (hm : m = .equals ∨ m = .value) (hne : w ≠ [])
    (hw : ∀ c ∈ w, word c = true) : m.after w = .value := by
  induction w generalizing m with
  | nil => exact absurd rfl hne
  | cons c w ih =>
      have hnext : m.next c = .value := by
        rw [Mode.next_word (hw c List.mem_cons_self)]
        rcases hm with rfl | rfl <;> rfl
      cases w with
      | nil => exact hnext
      | cons d w =>
          exact ih (.inr hnext) (List.cons_ne_nil d w) fun e he ↦ hw e (List.mem_cons_of_mem c he)

theorem after_argument (hw : ∀ c ∈ w, word c = true) : Mode.argument.after w = .argument := by
  induction w with
  | nil => rfl
  | cons c w ih =>
      have hnext : Mode.argument.next c = .argument :=
        Mode.next_word (hw c List.mem_cons_self)
      exact (congrArg (Mode.after · w) hnext).trans
        (ih fun d hd ↦ hw d (List.mem_cons_of_mem c hd))

theorem after_spaces (hm : m = .value) (hne : w ≠ [])
    (hw : ∀ c ∈ w, Js.Text.isSpace c = true) : (m.after w).opens = true := by
  obtain ⟨c, w, rfl⟩ := List.exists_cons_of_ne_nil hne
  have hnext : m.next c = .command :=
    Mode.next_blank (hw c List.mem_cons_self) (.inr (.inr hm))
  have hrest := after_blanks (.inl hnext) fun d hd ↦ hw d (List.mem_cons_of_mem c hd)
  rcases hrest with h | h <;> rw [Mode.after, List.foldl_cons, ← Mode.after, h] <;> rfl

theorem after_equals : Mode.name.next '=' = .equals := by decide

theorem after_assignment (hm : m.opens = true) (hw : Assignment w) :
    (m.after w).opens = true := by
  obtain ⟨n, x, blanks, rfl, hn, hxne, hx, hblanksne, hblanks⟩ := hw
  rw [Mode.after_append, Mode.after_append, after_name hm hn]
  have hvalue : Mode.name.after ('=' :: x) = .value :=
    (congrArg (Mode.after · x) after_equals).trans (after_words (.inl rfl) hxne hx)
  rw [hvalue]
  exact after_spaces rfl hblanksne hblanks

theorem after_assignments (hm : m.opens = true) (hw : Assignments w) :
    (m.after w).opens = true := by
  induction hw generalizing m with
  | none => exact hm
  | more ha _ ih =>
      rw [Mode.after_append]
      exact ih (after_assignment hm ha)

end Runs

/-- The mode behind a text tells exactly whether a command may begin there. -/
theorem opens_iff {u : List Char} : (Mode.start.after u).opens = true ↔ Opens true u := by
  constructor
  · intro h
    have hmeans : Means true ([] ++ u) (Mode.start.after u) := Means.after ⟨rfl, rfl⟩
    exact hmeans.opens h
  · rintro ⟨v, b, assigned, rfl, hb, hassigned⟩
    rw [Mode.after_append]
    refine after_assignments ?_ hassigned
    rcases hb with ⟨-, rfl, rfl⟩ | hb
    · rfl
    · rw [Mode.after_append]
      exact after_break _ hb

/-! ## The walk through a text -/

/-- As `Routed`, with the mode for the text before. -/
inductive Walk : Mode → List Char → List Char → Prop
  | done {m : Mode} : Walk m [] []
  | keep {m : Mode} {s t : List Char} {c : Char} (hplace : ¬(m.opens = true ∧ Headed (c :: s)))
      (hrest : Walk (m.next c) s t) : Walk m (c :: s) (c :: t)
  | cut {m : Mode} {d tool rest t : List Char} (hopens : m.opens = true) (hd : Directory d)
      (htool : tool ∈ EXECUTABLES) (hends : Ends rest) (hrest : Walk .argument rest t) :
      Walk m (d ++ tool ++ rest) (tool ++ t)

theorem Walk.length_le {m : Mode} {s t : List Char} (h : Walk m s t) :
    t.length ≤ s.length := by
  induction h with
  | done => exact Nat.le_refl 0
  | keep _ _ ih => exact Nat.succ_le_succ ih
  | cut _ _ _ _ _ ih =>
      simp only [List.length_append]
      omega

theorem Headed.slash {c : Char} {s : List Char} (h : Headed (c :: s)) : c = '/' := by
  obtain ⟨d, tool, rest, heq, ⟨x, rfl, -⟩, -⟩ := h
  exact (List.cons.inj heq).1

theorem executable_letters {tool : List Char} (h : tool ∈ EXECUTABLES) :
    tool ≠ [] ∧ ∀ c ∈ tool, nameHead c = true := by
  have hall : (EXECUTABLES.all fun t ↦ !t.isEmpty && t.all nameHead) = true := by decide
  have htool := List.all_eq_true.mp hall tool h
  rw [Bool.and_eq_true, List.all_eq_true] at htool
  refine ⟨?_, htool.2⟩
  rintro rfl
  cases htool.1

theorem Directory.words {d : List Char} (h : Directory d) : ∀ c ∈ d, word c = true := by
  obtain ⟨x, rfl, -, hx⟩ := h
  have hslash : word '/' = true := by decide
  simpa [or_imp, forall_and, hslash] using hx

section Kept

variable {m : Mode} {w s t : List Char}

theorem Walk.plain (hw : '/' ∉ w) (h : Walk (m.after w) s t) : Walk m (w ++ s) (w ++ t) := by
  induction w generalizing m with
  | nil => exact h
  | cons c w ih =>
      simp only [List.mem_cons, not_or] at hw
      exact .keep (fun hplace ↦ hw.1 hplace.2.slash.symm) (ih hw.2 h)

theorem Walk.value (hm : m = .equals ∨ m = .value) (hw : ∀ c ∈ w, word c = true)
    (h : Walk (m.after w) s t) : Walk m (w ++ s) (w ++ t) := by
  induction w generalizing m with
  | nil => exact h
  | cons c w ih =>
      have hnext : m.next c = .value := by
        rw [Mode.next_word (hw c List.mem_cons_self)]
        rcases hm with rfl | rfl <;> rfl
      refine .keep ?_ (ih (.inr hnext) (fun d hd ↦ hw d (List.mem_cons_of_mem c hd)) h)
      rintro ⟨hopens, -⟩
      rcases hm with rfl | rfl <;> cases hopens

theorem slash_notMem_spaces (hw : ∀ c ∈ w, Js.Text.isSpace c = true) : '/' ∉ w := by
  intro hmem
  have hspace := hw '/' hmem
  revert hspace
  decide

theorem Break.slash_notMem (h : Break w) : '/' ∉ w := by
  obtain ⟨sep, blanks, rfl, hsep, hblanks⟩ := h
  rw [List.mem_append, not_or]
  refine ⟨?_, slash_notMem_spaces hblanks⟩
  rcases hsep with rfl | rfl | ⟨c, hc, rfl⟩
  · decide
  · decide
  · rw [List.mem_singleton]
    rintro rfl
    revert hc
    decide

theorem Name.slash_notMem (h : Name w) : '/' ∉ w := by
  obtain ⟨c, n, rfl, hc, hn⟩ := h
  intro hmem
  rcases List.mem_cons.mp hmem with heq | hmem
  · exact (word_of_nameTail (nameTail_of_nameHead hc)).2 heq.symm
  · exact (word_of_nameTail (hn _ hmem)).2 rfl

/-- A slash within an assignment begins no command. -/
theorem Walk.assignment (hm : m.opens = true) (hw : Assignment w)
    (h : Walk (m.after w) s t) : Walk m (w ++ s) (w ++ t) := by
  obtain ⟨n, x, blanks, rfl, hn, hxne, hx, hblanksne, hblanks⟩ := hw
  rw [Mode.after_append, List.append_cons n '=' x, Mode.after_append, Mode.after_append,
    after_name hm hn] at h
  have hequals : Mode.name.after ['='] = .equals := after_equals
  have hlast := Walk.plain (slash_notMem_spaces hblanks) h
  rw [hequals] at hlast
  have hvalue := Walk.value (.inl rfl) hx hlast
  have hsign : '/' ∉ ['='] := by decide
  rw [← hequals, ← after_name hm hn] at hvalue
  have hname := Walk.plain hn.slash_notMem (Walk.plain hsign hvalue)
  simpa using hname

theorem Walk.assignments (hm : m.opens = true) (hw : Assignments w)
    (h : Walk (m.after w) s t) : Walk m (w ++ s) (w ++ t) := by
  induction hw generalizing m with
  | none => exact h
  | more ha _ ih =>
      rw [Mode.after_append] at h
      rw [List.append_assoc, List.append_assoc]
      exact Walk.assignment hm ha (ih (after_assignment hm ha) h)

end Kept

section Scan

variable {m : Mode} {s w : List Char}

/-- The beginning of a text, or what follows a match. -/
def Mode.fresh (m : Mode) : Prop := m = .start ∨ m = .argument

theorem Mode.fresh_means (hm : m.fresh) : Means (m == .start) [] m := by
  rcases hm with rfl | rfl
  · exact ⟨rfl, rfl⟩
  · trivial

/-- Where no position since the last match begins one, no command begins here with the
full path of a gated tool. -/
theorem not_place (hm : m.fresh)
    (hfail : ∀ v r, w = v ++ r → exec COMMAND_BOUNDARY (v.isEmpty && m == .start) (r ++ s) = none) :
    ¬((m.after w).opens = true ∧ Headed s) := by
  rintro ⟨hopens, d, tool, rest, rfl, hd, htool, hends⟩
  have hmeans : Means (m == .start) ([] ++ w) (m.after w) := (Mode.fresh_means hm).after
  obtain ⟨v, b, assigned, hw, hb, hassigned⟩ := hmeans.opens hopens
  rw [List.nil_append] at hw
  have hfirst : ((v.isEmpty && m == .start) = true ∧ b = []) ∨ Break b := by
    rcases hb with ⟨hstart, rfl, rfl⟩ | hb
    · exact .inl ⟨by simpa using hstart, rfl⟩
    · exact .inr hb
  have hmatch : GroupMatches COMMAND_BOUNDARY (v.isEmpty && m == .start)
      [b, assigned, d, tool, []] rest :=
    groupMatches_iff.mpr ⟨b, assigned, d, tool, rfl, hfirst, hassigned, hd, htool, hends⟩
  exact exec_eq_none (hfail v (b ++ assigned) (by rw [hw, List.append_assoc])) ⟨by simp, hmatch⟩

/-- What a match replaces is what the walk does there. -/
theorem walk_match {first : Bool} {groups : List (List Char)} {rest t : List Char}
    (hfirst : first = true → m = .start)
    (hmatch : GroupMatches COMMAND_BOUNDARY first groups rest) (h : Walk .argument rest t) :
    Walk m (groups.flatten ++ rest) (withoutDirectory groups ++ t) := by
  obtain ⟨b, assigned, d, tool, rfl, hb, hassigned, hd, htool, hends⟩ :=
    groupMatches_iff.mp hmatch
  have hopens : (m.after b).opens = true := by
    rcases hb with ⟨hstart, rfl⟩ | hb
    · rw [hfirst hstart]
      rfl
    · exact after_break m hb
  have hslash : '/' ∉ b := by
    rcases hb with ⟨-, rfl⟩ | hb
    · exact List.not_mem_nil
    · exact hb.slash_notMem
  have hcut := Walk.cut (after_assignments hopens hassigned) hd htool hends h
  have hwalk := Walk.plain hslash (Walk.assignments hopens hassigned hcut)
  simpa [withoutDirectory] using hwalk

theorem match_ne_nil {first : Bool} {groups : List (List Char)} {rest : List Char}
    (hmatch : GroupMatches COMMAND_BOUNDARY first groups rest) : groups.flatten ≠ [] := by
  obtain ⟨b, assigned, d, tool, rfl, -, -, ⟨x, rfl, -⟩, -⟩ := groupMatches_iff.mp hmatch
  simp

theorem after_of_first (h : (w.isEmpty && m == .start) = true) : m.after w = .start := by
  simp only [Bool.and_eq_true, List.isEmpty_iff, beq_iff_eq] at h
  obtain ⟨rfl, rfl⟩ := h
  rfl

/-- From a fresh start, with no match at the positions passed since, the engine does what
the walk does. -/
theorem replaceFrom_walk (hm : m.fresh)
    (hfail : ∀ v r, w = v ++ r → r ≠ [] →
      exec COMMAND_BOUNDARY (v.isEmpty && m == .start) (r ++ s) = none) :
    Walk (m.after w) s
      (replaceFrom COMMAND_BOUNDARY withoutDirectory 0 (w.isEmpty && m == .start) s) := by
  induction hn : s.length using Nat.strongRecOn generalizing m s w with
  | ind n ih =>
      subst hn
      cases s with
      | nil =>
          rw [replaceFrom]
          cases hexec : exec COMMAND_BOUNDARY (w.isEmpty && m == .start) [] with
          | none => exact .done
          | some found =>
              obtain ⟨heq, hmatch⟩ := exec_eq_some hexec
              exact absurd (List.append_eq_nil_iff.mp heq).1 (match_ne_nil hmatch)
      | cons c s =>
          rw [replaceFrom]
          cases hexec : exec COMMAND_BOUNDARY (w.isEmpty && m == .start) (c :: s) with
          | none =>
              have hall : ∀ v r, w = v ++ r →
                  exec COMMAND_BOUNDARY (v.isEmpty && m == .start) (r ++ c :: s) = none := by
                intro v r hw
                cases r with
                | nil =>
                    rw [List.append_nil] at hw
                    exact hw ▸ hexec
                | cons d r => exact hfail v (d :: r) hw (List.cons_ne_nil d r)
              refine .keep (not_place hm hall) ?_
              have hrest : ∀ v r, w ++ [c] = v ++ r → r ≠ [] →
                  exec COMMAND_BOUNDARY (v.isEmpty && m == .start) (r ++ s) = none := by
                intro v r hw hne
                obtain ⟨r, d, rfl⟩ := (List.eq_nil_or_concat' r).resolve_left hne
                rw [← List.append_assoc] at hw
                obtain ⟨hwr, hcd⟩ := List.append_inj' hw rfl
                obtain rfl := List.singleton_inj.mp hcd
                rw [← List.append_cons]
                exact hall v r hwr
              have hwalk := ih s.length (Nat.lt_succ_self _) hm hrest rfl
              have hempty : (w ++ [c]).isEmpty = false := by simp
              rw [Mode.after_concat, hempty, Bool.false_and] at hwalk
              exact hwalk
          | some found =>
              obtain ⟨groups, rest⟩ := found
              obtain ⟨heq, hmatch⟩ := exec_eq_some hexec
              have hne := match_ne_nil hmatch
              have hpos : 0 < groups.flatten.length := List.length_pos_of_ne_nil hne
              have hlength := congrArg List.length heq
              rw [List.length_append, List.length_cons] at hlength
              have hdrop : s.drop (groups.flatten.length - 1) = rest := by
                have hwhole := congrArg (List.drop groups.flatten.length) heq
                rw [List.drop_left] at hwhole
                rw [hwhole, ← Nat.sub_add_cancel hpos, List.drop_succ_cons,
                  Nat.add_sub_cancel]
              have hwalk : Walk .argument rest
                  (replaceFrom COMMAND_BOUNDARY withoutDirectory 0 false rest) := by
                have hnone : ∀ v r : List Char, [] = v ++ r → r ≠ [] →
                    exec COMMAND_BOUNDARY (v.isEmpty && Mode.argument == .start) (r ++ rest) =
                      none := by
                  intro v r hv hr
                  exact absurd (List.append_eq_nil_iff.mp hv.symm).2 hr
                exact ih rest.length (by rw [List.length_cons]; omega) (.inr rfl) hnone rfl
              have hempty : groups.flatten.isEmpty = false := by simpa using hne
              simp only [hempty, Bool.false_eq_true, if_false]
              rw [replaceFrom_drop (by omega), hdrop, ← heq]
              exact walk_match after_of_first hmatch hwalk

end Scan

theorem route_walk (command : List Char) :
    Walk .start command (routeToolchainExecutablesThroughGate command) := by
  have hnone : ∀ v r : List Char, [] = v ++ r → r ≠ [] →
      exec COMMAND_BOUNDARY (v.isEmpty && Mode.start == .start) (r ++ command) = none := by
    intro v r hv hr
    exact absurd (List.append_eq_nil_iff.mp hv.symm).2 hr
  exact replaceFrom_walk (.inl rfl) hnone

section Again

variable {m : Mode} {c : Char} {s t u d d' tool tool' rest rest' : List Char}

theorem Walk.cases (h : Walk m s t) :
    (s = [] ∧ t = []) ∨
      (∃ c s' t', s = c :: s' ∧ t = c :: t' ∧ ¬(m.opens = true ∧ Headed (c :: s')) ∧
        Walk (m.next c) s' t') ∨
      ∃ d tool rest t', s = d ++ tool ++ rest ∧ t = tool ++ t' ∧ m.opens = true ∧ Directory d ∧
        tool ∈ EXECUTABLES ∧ Ends rest ∧ Walk .argument rest t' := by
  cases h with
  | done => exact .inl ⟨rfl, rfl⟩
  | keep hplace hrest => exact .inr (.inl ⟨_, _, _, rfl, rfl, hplace, hrest⟩)
  | cut hopens hd htool hends hrest =>
      exact .inr (.inr ⟨_, _, _, _, rfl, rfl, hopens, hd, htool, hends, hrest⟩)

theorem executable_words (h : tool ∈ EXECUTABLES) : ∀ c ∈ tool, word c = true :=
  fun c hc ↦ (word_of_nameTail (nameTail_of_nameHead ((executable_letters h).2 c hc))).1

theorem executable_slash (h : tool ∈ EXECUTABLES) : '/' ∉ tool :=
  fun hmem ↦ (word_of_nameTail (nameTail_of_nameHead ((executable_letters h).2 _ hmem))).2 rfl

theorem Ends.takeWhile (h : Ends rest) : rest.takeWhile word = [] := by
  rcases h with rfl | ⟨c, r, rfl, hc⟩
  · rfl
  · have hword : word c = false := by
      rw [word, hc]
      rfl
    rw [List.takeWhile_cons, hword]
    rfl

/-- The path of a tool is read in one way only. -/
theorem path_unique (hd : Directory d) (hd' : Directory d') (htool : tool ∈ EXECUTABLES)
    (htool' : tool' ∈ EXECUTABLES) (hends : Ends rest) (hends' : Ends rest')
    (heq : d ++ tool ++ rest = d' ++ tool' ++ rest') : tool = tool' ∧ rest = rest' := by
  have hrun {d tool rest : List Char} (hd : Directory d) (htool : tool ∈ EXECUTABLES)
      (hends : Ends rest) : (d ++ tool ++ rest).takeWhile word = d ++ tool := by
    have hwords : ∀ c ∈ d ++ tool, word c = true := by
      intro c hc
      exact (List.mem_append.mp hc).elim (hd.words c) (executable_words htool c)
    rw [List.takeWhile_append_of_pos hwords, hends.takeWhile, List.append_nil]
  have hpath : d ++ tool = d' ++ tool' := by
    rw [← hrun hd htool hends, heq, hrun hd' htool' hends']
  refine ⟨?_, List.append_cancel_left (hpath ▸ heq)⟩
  obtain ⟨x, rfl, -⟩ := hd
  obtain ⟨x', rfl, -⟩ := hd'
  have hcut : ('/' :: x) ++ '/' :: tool = ('/' :: x') ++ '/' :: tool' := by simpa using hpath
  exact ((append_sep_inj_last (executable_slash htool) (executable_slash htool')).mp hcut).2

theorem headed_of_path (hd : Directory d) (htool : tool ∈ EXECUTABLES) (hends : Ends rest) :
    Headed (d ++ tool ++ rest) :=
  ⟨d, tool, rest, rfl, hd, htool, hends⟩

theorem Walk.unique (h : Walk m s t) {t' : List Char} (h' : Walk m s t') : t = t' := by
  induction h generalizing t' with
  | done =>
      rcases h'.cases with ⟨-, rfl⟩ | ⟨c, s', _, hs, -⟩ | ⟨d, tool, rest, _, hs, -, -, hd, -⟩
      · rfl
      · cases hs
      · obtain ⟨x, rfl, -⟩ := hd
        cases hs
  | @keep m s t c hplace _ ih =>
      rcases h'.cases with ⟨hs, -⟩ | ⟨d, s', t', hs, rfl, -, hrest⟩ |
        ⟨d, tool, rest, t', hs, -, hopens, hd, htool, hends, -⟩
      · cases hs
      · obtain ⟨rfl, rfl⟩ := List.cons.inj hs
        rw [ih hrest]
      · exact absurd ⟨hopens, hs ▸ headed_of_path hd htool hends⟩ hplace
  | @cut m d tool rest t hopens hd htool hends _ ih =>
      rcases h'.cases with ⟨hs, -⟩ | ⟨c, s', t', hs, -, hplace, -⟩ |
        ⟨d', tool', rest', t', hs, rfl, -, hd', htool', hends', hrest⟩
      · obtain ⟨x, rfl, -⟩ := hd
        cases hs
      · exact absurd ⟨hopens, hs ▸ headed_of_path hd htool hends⟩ hplace
      · obtain ⟨rfl, rfl⟩ := path_unique hd hd' htool htool' hends hends' hs
        rw [ih hrest]

theorem walk_iff_route {command : List Char} :
    Walk .start command t ↔ t = routeToolchainExecutablesThroughGate command :=
  ⟨fun h ↦ h.unique (route_walk command), fun h ↦ h ▸ route_walk command⟩

theorem after_path (hm : m.opens = true) (hd : Directory d) (htool : tool ∈ EXECUTABLES) :
    m.after (d ++ tool) = .argument := by
  obtain ⟨x, rfl, -, hx⟩ := hd
  have hslash : m.next '/' = .argument := by
    cases m with
    | start | command | amps => decide
    | amp | name | equals | value | argument => cases hm
  have hwords : ∀ c ∈ x ++ ['/'] ++ tool, word c = true := by
    have hsep : word '/' = true := by decide
    simpa [or_imp, forall_and, hsep] using ⟨hx, executable_words htool⟩
  rw [List.cons_append, List.cons_append, Mode.after, List.foldl_cons, hslash, ← Mode.after]
  exact after_argument hwords

theorem walk_of_routed (h : Routed u s t) : Walk (Mode.start.after u) s t := by
  induction h with
  | done => exact .done
  | keep hplace _ ih =>
      rw [Mode.after_concat] at ih
      exact .keep (fun h ↦ hplace ⟨opens_iff.mp h.1, h.2⟩) ih
  | cut hopens hd htool hends _ ih =>
      have hm := opens_iff.mpr hopens
      rw [List.append_assoc, Mode.after_append, after_path hm hd htool] at ih
      exact .cut hm hd htool hends ih

theorem routed_of_walk (h : Walk m s t) (hm : Mode.start.after u = m) : Routed u s t := by
  induction h generalizing u with
  | done => exact .done
  | @keep m s t c hplace _ ih =>
      subst hm
      exact .keep (fun h ↦ hplace ⟨opens_iff.mpr h.1, h.2⟩) (ih (Mode.after_concat ..))
  | @cut m d tool rest t hopens hd htool hends _ ih =>
      subst hm
      refine .cut (opens_iff.mp hopens) hd htool hends (ih ?_)
      rw [List.append_assoc, Mode.after_append, after_path hopens hd htool]

/-- The routed command is the command with a directory taken off exactly where a command
begins with the full path of a gated tool: no such place is missed, and nothing else of
the text changes. -/
theorem routed_iff {command : List Char} :
    Routed [] command t ↔ t = routeToolchainExecutablesThroughGate command :=
  ⟨fun h ↦ walk_iff_route.mp (walk_of_routed h), fun h ↦ routed_of_walk (walk_iff_route.mpr h) rfl⟩

end Again

/-! ## Once is enough -/

section Settled

variable {m : Mode} {s t w : List Char}

/-- Within a word nothing is taken off. -/
theorem Walk.of_words (h : Walk .argument s (w ++ t)) (hw : ∀ c ∈ w, word c = true) :
    ∃ s', s = w ++ s' ∧ Walk .argument s' t := by
  induction w generalizing s with
  | nil => exact ⟨s, rfl, h⟩
  | cons c w ih =>
      rcases h.cases with ⟨-, ht⟩ | ⟨d, s', t', rfl, ht, -, hrest⟩ | ⟨_, _, _, _, -, -, hopens, -⟩
      · cases ht
      · obtain ⟨rfl, rfl⟩ := List.cons.inj ht
        have hnext : Mode.argument.next c = .argument :=
          Mode.next_word (hw c List.mem_cons_self)
        rw [hnext] at hrest
        obtain ⟨s, rfl, hs⟩ := ih hrest fun d hd ↦ hw d (List.mem_cons_of_mem c hd)
        exact ⟨s, rfl, hs⟩
      · cases hopens

theorem Walk.ends (h : Walk .argument s t) (ht : Ends t) : Ends s := by
  rcases h.cases with ⟨rfl, -⟩ | ⟨c, s', t', rfl, rfl, -, -⟩ | ⟨_, _, _, _, -, -, hopens, -⟩
  · exact .inl rfl
  · rcases ht with ht | ⟨d, r, ht, hd⟩
    · cases ht
    · obtain ⟨rfl, rfl⟩ := List.cons.inj ht
      exact .inr ⟨c, s', rfl, hd⟩
  · cases hopens

theorem Walk.ends_of (h : Walk .argument s t) (hs : Ends s) : Ends t := by
  rcases h.cases with ⟨-, rfl⟩ | ⟨c, s', t', rfl, rfl, -, -⟩ | ⟨_, _, _, _, -, -, hopens, -⟩
  · exact .inl rfl
  · rcases hs with hs | ⟨d, r, hs, hd⟩
    · cases hs
    · obtain ⟨rfl, rfl⟩ := List.cons.inj hs
      exact .inr ⟨c, t', rfl, hd⟩
  · cases hopens

/-- A path that the routed text begins with was there before. -/
theorem Walk.headed {c : Char} (hm : m.opens = true) (h : Walk (m.next c) s t)
    (hheaded : Headed (c :: t)) : Headed (c :: s) := by
  obtain ⟨d, tool, rest, heq, hd, htool, hends⟩ := hheaded
  have hpath := after_path hm hd htool
  obtain ⟨x, rfl, hxne, hx⟩ := hd
  rw [List.cons_append, List.cons_append, List.cons_append] at heq
  obtain ⟨rfl, rfl⟩ := List.cons.inj heq
  have hargument : m.next '/' = .argument := by
    cases m with
    | start | command | amps => decide
    | amp | name | equals | value | argument => cases hm
  rw [hargument] at h
  have hwords : ∀ c ∈ x ++ ['/'] ++ tool, word c = true := by
    have hsep : word '/' = true := by decide
    simpa [or_imp, forall_and, hsep] using ⟨hx, executable_words htool⟩
  obtain ⟨s', rfl, hrest⟩ := h.of_words hwords
  exact ⟨'/' :: x ++ ['/'], tool, s', by simp, ⟨x, rfl, hxne, hx⟩, htool, hrest.ends hends⟩

theorem Walk.again (h : Walk m s t) : Walk m t t := by
  induction h with
  | done => exact .done
  | keep hplace hrest ih =>
      exact .keep (fun h ↦ hplace ⟨h.1, hrest.headed h.1 h.2⟩) ih
  | @cut m d tool rest t hopens hd htool hends hrest ih =>
      refine Walk.plain (executable_slash htool) ?_
      obtain ⟨hne, hheads⟩ := executable_letters htool
      obtain ⟨c, tail, rfl⟩ := List.exists_cons_of_ne_nil hne
      have hname : m.after (c :: tail) = .name :=
        after_name hopens ⟨c, tail, rfl, hheads c List.mem_cons_self, fun e he ↦
          nameTail_of_nameHead (hheads e (List.mem_cons_of_mem c he))⟩
      rw [hname]
      rcases hrest.ends_of hends with rfl | ⟨e, r, rfl, he⟩
      · exact .done
      · have hslash : e ≠ '/' := by
          rintro rfl
          cases he
        rcases ih.cases with ⟨ht, -⟩ | ⟨e', r', _, ht, ht', -, hagain⟩ |
          ⟨_, _, _, _, -, -, hargument, -⟩
        · cases ht
        · obtain ⟨rfl, rfl⟩ := List.cons.inj ht
          obtain ⟨-, rfl⟩ := List.cons.inj ht'
          have hnext : Mode.name.next e = Mode.argument.next e := by
            cases hends' : OmpGate.ends e with
            | true => rw [Mode.next_ends hends', Mode.next_ends hends']
            | false =>
                rw [Mode.next_space he hends', Mode.next_space he hends']
                rfl
          exact .keep (fun h ↦ hslash h.2.slash) (hnext ▸ hagain)
        · cases hargument

theorem Headed.ne_nil (h : Headed s) : s ≠ [] := by
  obtain ⟨d, tool, rest, rfl, ⟨x, rfl, -⟩, -⟩ := h
  simp

theorem Walk.settled {u r : List Char} (h : Walk m (u ++ r) (u ++ r)) :
    ¬((m.after u).opens = true ∧ Headed r) := by
  induction u generalizing m with
  | nil =>
      rintro ⟨hopens, hheaded⟩
      rw [List.nil_append] at h
      rcases h.cases with ⟨hr, -⟩ | ⟨c, s', _, hr, -, hplace, -⟩ |
        ⟨d, tool, rest, t', hr, ht, -, ⟨x, rfl, -⟩, -, hends, hrest⟩
      · exact hheaded.ne_nil hr
      · exact hplace ⟨hopens, hr ▸ hheaded⟩
      · have hlength := congrArg List.length (hr.symm.trans ht)
        have hshorter := hrest.length_le
        simp only [List.length_append, List.length_cons, List.length_nil] at hlength
        omega
  | cons c u ih =>
      rcases h.cases with ⟨hr, -⟩ | ⟨d, s', t', hs, ht, -, hrest⟩ |
        ⟨d, tool, rest, t', hr, ht, -, ⟨x, rfl, -⟩, -, hends, hrest⟩
      · cases hr
      · obtain ⟨rfl, rfl⟩ := List.cons.inj hs
        obtain ⟨-, rfl⟩ := List.cons.inj ht
        exact ih hrest
      · have hlength := congrArg List.length (hr.symm.trans ht)
        have hshorter := hrest.length_le
        simp only [List.length_append, List.length_cons, List.length_nil] at hlength
        omega

theorem Walk.still (h : ∀ u r, s = u ++ r → ¬((m.after u).opens = true ∧ Headed r)) :
    Walk m s s := by
  induction s generalizing m with
  | nil => exact .done
  | cons c s ih =>
      refine .keep (h [] (c :: s) rfl) (ih fun u r hs ↦ ?_)
      exact h (c :: u) r (by rw [hs, List.cons_append])

end Settled

/-- A place in a command where a gated tool is called by its full path. -/
def CalledByPath (s : List Char) : Prop := ∃ u r, s = u ++ r ∧ Opens true u ∧ Headed r

theorem route_eq_self_iff {command : List Char} :
    routeToolchainExecutablesThroughGate command = command ↔ ¬CalledByPath command := by
  rw [eq_comm, ← walk_iff_route]
  constructor
  · rintro h ⟨u, r, rfl, hopens, hheaded⟩
    exact h.settled ⟨opens_iff.mpr hopens, hheaded⟩
  · intro h
    exact Walk.still fun u r hs hplace ↦ h ⟨u, r, hs, opens_iff.mp hplace.1, hplace.2⟩

theorem route_route (command : List Char) :
    routeToolchainExecutablesThroughGate (routeToolchainExecutablesThroughGate command) =
      routeToolchainExecutablesThroughGate command :=
  (walk_iff_route.mp (route_walk command).again).symm

section Extension

variable {categories : Option String} {toolName : String} {input input' : Fields}

/-- When the extension steps in, and with what. -/
theorem ompHeavyGate_eq_some : ompHeavyGate categories toolName input = some input' ↔
    toolName = "bash" ∧ categories.getD "" ≠ "" ∧
      ∃ command, input.lookup "command" = .str command ∧ CalledByPath command.toList ∧
        input' = input.set "command"
          (.str (String.ofList (routeToolchainExecutablesThroughGate command.toList))) := by
  have hsame {command : String} :
      String.ofList (routeToolchainExecutablesThroughGate command.toList) = command ↔
        ¬CalledByPath command.toList := by
    rw [← route_eq_self_iff]
    constructor
    · intro h
      rw [← String.toList_ofList (l := routeToolchainExecutablesThroughGate command.toList), h]
    · intro h
      rw [h, String.ofList_toList]
  rw [ompHeavyGate]
  split
  · rename_i hoff
    simp only [reduceCtorEq, false_iff]
    rintro ⟨hbash, hon, -⟩
    exact hoff.elim (fun h ↦ h hbash) hon
  · rename_i hon
    rw [not_or, not_not] at hon
    simp only [hon.1, ne_eq, hon.2, not_false_eq_true, true_and]
    split
    · rename_i command hcommand
      simp only [hcommand, Val.str.injEq, exists_eq_left']
      by_cases hplace : CalledByPath command.toList
      · rw [if_neg (fun h ↦ hsame.mp h hplace), Option.some.injEq, eq_comm]
        simp only [hplace, true_and]
      · rw [if_pos (hsame.mpr hplace)]
        simp only [reduceCtorEq, hplace, false_and]
    · rename_i hother
      simp only [reduceCtorEq, false_iff]
      rintro ⟨command, hcommand, -⟩
      exact hother command hcommand

/-- Once routed, a call passes as it is: the new command calls no gated tool by its path,
the other arguments are those of the call, and the extension has nothing more to say. -/
theorem ompHeavyGate_once (h : ompHeavyGate categories toolName input = some input') :
    (∃ command, input'.lookup "command" = .str command ∧ ¬CalledByPath command.toList) ∧
      (∀ k, k ≠ "command" → input'.lookup k = input.lookup k) ∧
      ompHeavyGate categories toolName input' = none := by
  obtain ⟨-, -, command, -, -, rfl⟩ := ompHeavyGate_eq_some.mp h
  have hsettled : ¬CalledByPath (String.ofList
      (routeToolchainExecutablesThroughGate command.toList)).toList := by
    rw [String.toList_ofList, ← route_eq_self_iff]
    exact route_route command.toList
  refine ⟨⟨_, by rw [Fields.lookup_set, if_pos rfl], hsettled⟩, ?_, ?_⟩
  · intro k hk
    rw [Fields.lookup_set, if_neg hk.symm]
  · rw [Option.eq_none_iff_forall_ne_some]
    intro input'' hagain
    obtain ⟨-, -, command', hcommand, hplace, -⟩ := ompHeavyGate_eq_some.mp hagain
    rw [Fields.lookup_set, if_pos rfl, Val.str.injEq] at hcommand
    exact hsettled (hcommand ▸ hplace)

/-- A build in a subdirectory, with a setting before the tool. -/
def builtByPath : Fields :=
  [("command", .str "cd app && CI=1 /opt/node/bin/node build.js"), ("timeout", .num (.ofInt 60))]

theorem builtByPath_once :
    ompHeavyGate (some "build") "bash"
        [("command", .str "cd app && CI=1 node build.js"), ("timeout", .num (.ofInt 60))] = none :=
  have hroute : String.ofList (routeToolchainExecutablesThroughGate
      "cd app && CI=1 /opt/node/bin/node build.js".toList) = "cd app && CI=1 node build.js" := by
    decide +kernel
  have hrouted : ompHeavyGate (some "build") "bash" builtByPath =
      some [("command", .str "cd app && CI=1 node build.js"), ("timeout", .num (.ofInt 60))] := by
    rw [ompHeavyGate, if_neg (by decide)]
    have hlookup : builtByPath.lookup "command" =
        .str "cd app && CI=1 /opt/node/bin/node build.js" := rfl
    simp only [hlookup]
    rw [hroute, if_neg (by decide)]
    rfl
  (ompHeavyGate_once hrouted).2.2

end Extension

end RemoteDevbox.Box.OmpGate
