import RemoteDevbox.Box.Outcomes

namespace RemoteDevbox.Box.Collect

open Js

/-!
# Which lines speak for a listener

`ss` prints one socket a line: its local end, and at the end of the line the
processes that have it. The collector looks for the declared location anywhere in the
line, and for a quoted name anywhere too.
-/

/-! ## What `ss` prints -/

/-- A process that has the socket, with what is printed after its name. -/
structure User where
  name : String
  detail : String

def User.text (u : User) : List Char :=
  '(' :: '"' :: (u.name.toList ++ '"' :: (u.detail.toList ++ [')']))

/-- A line of `ss`: the text before the local end, which it is followed by, and the
processes. -/
structure Socket where
  front : String
  localEnd : String
  back : String
  users : List User
  oneLine : '\n' ∉ front.toList ++ localEnd.toList ++ back.toList
  oneLineUsers : ∀ u ∈ users, '\n' ∉ u.text

def usersText (users : List User) : List Char :=
  if users = [] then [] else "users:(".toList ++ ([','].intercalate (users.map User.text) ++ [')'])

def Socket.text (s : Socket) : List Char :=
  s.front.toList ++ s.localEnd.toList ++ s.back.toList ++ usersText s.users

def printed (sockets : List Socket) : String :=
  String.ofList (['\n'].intercalate (sockets.map Socket.text ++ [[]]))

/-- What is known of the sockets of one protocol. -/
inductive Evidence where
  | unasked
  | failed (probe : CommandResult) (h : probe.timedOut = true ∨ probe.exitCode ≠ some 0)
  | answered (sockets : List Socket) (stderr : String)

def Evidence.result : Evidence → Option CommandResult
  | .unasked => none
  | .failed probe _ => some probe
  | .answered sockets stderr => some ⟨printed sockets, stderr, some 0, false⟩

def Evidence.sockets : Evidence → List Socket
  | .answered sockets _ => sockets
  | _ => []

/-- The evidence of the listener's own protocol. -/
def Evidence.about (tcp unix : Evidence) : ListenerFact → Evidence
  | .tcp .. => tcp
  | .unix .. => unix

/-! ## Who has an endpoint -/

/-- How `ss` prints an IPv6 address. -/
def bracketed : ListenerFact → Option String
  | .tcp address port .. => some s!"[{address}]:{port.toStr}"
  | .unix .. => none

/-- The local end is exactly the declared one. -/
def IsLocal (listener : ListenerFact) (s : Socket) : Prop :=
  s.localEnd = location listener ∨ some s.localEnd = bracketed listener

/-- The name is the declared one, or starts with it where that is what is declared. -/
def IsProcess (listener : ListenerFact) (name : String) : Prop :=
  if processMatch listener = some .leading then (process listener).toList <+: name.toList
  else name = process listener

def Owner (listener : ListenerFact) (s : Socket) : Prop :=
  ∃ u ∈ s.users, IsProcess listener u.name

/-- The process has the declared endpoint itself. -/
def Owns (listener : ListenerFact) (sockets : List Socket) : Prop :=
  ∃ s ∈ sockets, IsLocal listener s ∧ Owner listener s

/-- What is reported agrees with who has the endpoint. -/
structure Exact (listener : ListenerFact) (sockets : List Socket) (entry : Option String) :
    Prop where
  owned : entry = some (ListenerReport.owned.entry listener) → Owns listener sockets
  kept : Owns listener sockets →
    entry ≠ some (ListenerReport.missing.entry listener) ∧
      entry ≠ some (ListenerReport.otherOwner.entry listener)

/-! ## What misleads -/

/-- The location is somewhere in the line: the local end, the start of a longer port, the
end of a longer address, the peer. -/
def Mentions (listener : ListenerFact) (s : Socket) : Prop := (location listener).toList <:+: s.text

/-- The name is not empty and has no quote. -/
structure User.Plain (u : User) : Prop where
  ne : u.name ≠ ""
  unquoted : '"' ∉ u.name.toList
  detail : '(' ∉ u.detail.toList

/-- Only the processes are quoted in the line. A socket path can hold anything. -/
structure Socket.Plain (s : Socket) : Prop where
  columns : ¬['(', '"'] <:+: s.front.toList ++ s.localEnd.toList ++ s.back.toList
  users : ∀ u ∈ s.users, u.Plain

/-- The line names the process. -/
def Names (listener : ListenerFact) (s : Socket) : Prop :=
  (s.Plain ∧ Owner listener s) ∨
    (¬s.Plain ∧ listenerOwnerMatches listener (String.ofList s.text) = true)

/-- The ways in which looking for the location misleads. -/
inductive Misread (listener : ListenerFact) (sockets : List Socket) : Prop
  /-- The process has the endpoint, printed in brackets, and no line has the location. -/
  | unspelled (s : Socket) (hs : s ∈ sockets) (hlocal : some s.localEnd = bracketed listener)
      (howner : Owner listener s) (hnone : ∀ t ∈ sockets, ¬Mentions listener t)
  /-- The process has the endpoint, and before any other line one of someone else has the
  location in it. -/
  | shadowed (s : Socket) (hs : s ∈ sockets) (hlocal : IsLocal listener s)
      (howner : Owner listener s) (before after : List Socket) (first : Socket)
      (hlines : sockets = before ++ first :: after) (hbefore : ∀ t ∈ before, ¬Mentions listener t)
      (hfirst : Mentions listener first) (hother : ¬Names listener first)
  /-- The process does not have the endpoint, and before any other line one of its own has the
  location in it. -/
  | borrowed (hnot : ∀ s ∈ sockets, IsLocal listener s → ¬Owner listener s)
      (before after : List Socket) (first : Socket)
      (hlines : sockets = before ++ first :: after) (hbefore : ∀ t ∈ before, ¬Mentions listener t)
      (hfirst : Mentions listener first) (howner : Names listener first)

/-! ## What an entry says -/

/-- An entry about an owned listener is no other entry. -/
theorem entry_ne_owned (listener : ListenerFact) {report : ListenerReport} (h : report ≠ .owned) :
    report.entry listener ≠ ListenerReport.owned.entry listener := by
  have howned : " owns ".toList <:+: (ListenerReport.owned.entry listener).toList := by
    refine ⟨(process listener).toList, (location listener).toList, ?_⟩
    change _ = (process listener ++ " owns " ++ location listener).toList
    rw [String.toList_append, String.toList_append]
  have hprotocol : protocol listener = "tcp" ∨ protocol listener = "unix" := by
    cases listener
    · exact .inl rfl
    · exact .inr rfl
  intro heq
  rw [← heq] at howned
  rcases hprotocol with hp | hp <;> cases report <;> first
    | exact absurd rfl h
    | simp only [ListenerReport.entry, hp] at howned
      exact absurd howned (by decide +kernel)

theorem listenerOwnerMatches_empty (listener : ListenerFact) :
    listenerOwnerMatches listener "" = false := by
  unfold listenerOwnerMatches
  split <;> rfl

theorem lineReport_cases (listener : ListenerFact) (evidence : String) :
    lineReport listener evidence ∈ [ListenerReport.missing, .otherOwner, .owned] := by
  unfold lineReport
  split
  · simp
  · split <;> simp

theorem lineReport_owned_iff {listener : ListenerFact} {evidence : String} :
    lineReport listener evidence = .owned ↔
      ∃ line, listenerLine listener evidence = some line ∧
        listenerOwnerMatches listener line = true := by
  rw [lineReport]
  constructor
  · intro h
    split at h
    · cases h
    · rename_i line hfilter
      split at h
      · rename_i howner
        exact ⟨line, (Option.filter_eq_some_iff.mp hfilter).1, howner⟩
      · cases h
  · rintro ⟨line, hfirst, howner⟩
    have hne : line ≠ "" := by
      rintro rfl
      rw [listenerOwnerMatches_empty] at howner
      cases howner
    rw [hfirst, Option.filter_some, if_pos (by simpa using hne)]
    exact if_pos howner

/-! ## The names that are read -/

theorem quotedNames_opened {c : Char} (h : c ≠ '"') (cs : List Char) :
    quotedNames .opened (c :: cs) = quotedNames .outside (c :: cs) := by
  simp [quotedNames, h]

/-- Text without a quote after a parenthesis adds no name. -/
theorem quotedNames_quiet {cs rest : List Char} (h : ¬['(', '"'] <:+: cs)
    (hrest : quotedNames .opened rest = quotedNames .outside rest) :
    quotedNames .outside (cs ++ rest) = quotedNames .outside rest := by
  induction cs with
  | nil => rfl
  | cons c cs ih =>
      have htail := ih fun hin ↦ h (hin.trans (List.suffix_cons c cs).isInfix)
      rw [List.cons_append, quotedNames]
      split
      next hopen =>
        subst hopen
        cases cs with
        | nil => exact hrest
        | cons d cs =>
            have hd : d ≠ '"' := by
              rintro rfl
              exact h ⟨[], cs, rfl⟩
            rw [List.cons_append, quotedNames_opened hd]
            exact htail
      next => exact htail

theorem quotedNames_name {read name rest : List Char} (hquote : '"' ∉ name)
    (hne : read ++ name ≠ []) :
    quotedNames (.name read) (name ++ '"' :: rest) =
      String.ofList (read ++ name) :: quotedNames .outside rest := by
  induction name generalizing read with
  | nil =>
      rw [List.append_nil] at hne ⊢
      simp [quotedNames, hne]
  | cons c name ih =>
      have hc : c ≠ '"' := fun heq ↦ hquote (heq ▸ List.mem_cons_self)
      have hrest : '"' ∉ name := fun hmem ↦ hquote (List.mem_cons_of_mem _ hmem)
      rw [List.cons_append, quotedNames, if_pos hc, ih hrest (by simp)]
      simp

theorem quotedNames_user {u : User} (h : u.Plain) (rest : List Char) :
    quotedNames .outside (u.text ++ rest) = u.name :: quotedNames .outside rest := by
  have hdetail : ¬['(', '"'] <:+: u.detail.toList := fun hin ↦
    h.detail (hin.subset List.mem_cons_self)
  have hname : [] ++ u.name.toList ≠ [] := by simpa using h.ne
  have htext : u.text ++ rest =
      '(' :: '"' :: (u.name.toList ++ '"' :: (u.detail.toList ++ ')' :: rest)) := by
    simp [User.text]
  rw [htext]
  change quotedNames (.name []) (u.name.toList ++ '"' :: (u.detail.toList ++ ')' :: rest)) = _
  rw [quotedNames_name h.unquoted hname,
    quotedNames_quiet hdetail (quotedNames_opened (by decide) rest), List.nil_append,
    String.ofList_toList]
  rfl

theorem quotedNames_users {users : List User} (h : ∀ u ∈ users, u.Plain) (rest : List Char) :
    quotedNames .outside ([','].intercalate (users.map User.text) ++ rest) =
      users.map User.name ++ quotedNames .outside rest := by
  induction users with
  | nil => rfl
  | cons u users ih =>
      obtain ⟨hu, hrest⟩ := List.forall_mem_cons.mp h
      cases users with
      | nil =>
          rw [List.map_singleton, List.intercalate_singleton, quotedNames_user hu]
          rfl
      | cons u' users =>
          rw [List.map_cons, List.map_cons, List.intercalate_cons_cons, List.append_assoc,
            List.append_assoc, quotedNames_user hu]
          change u.name :: quotedNames .outside
            ([','].intercalate ((u' :: users).map User.text) ++ rest) = _
          rw [ih hrest]
          rfl

theorem quotedNames_usersText {users : List User} (h : ∀ u ∈ users, u.Plain) :
    quotedNames .outside (usersText users) = users.map User.name := by
  rw [usersText]
  split
  next hnil =>
    rw [hnil]
    rfl
  next hne =>
    obtain ⟨u, users, rfl⟩ := List.exists_cons_of_ne_nil hne
    have hcolon : "users:(".toList = ['u', 's', 'e', 'r', 's', ':', '('] := rfl
    have hopen : quotedNames .outside ("users:(".toList ++
        ([','].intercalate ((u :: users).map User.text) ++ [')'])) =
        quotedNames .opened ([','].intercalate ((u :: users).map User.text) ++ [')']) := by
      rw [hcolon]
      rfl
    obtain ⟨cs, hcs⟩ : ∃ cs, [','].intercalate ((u :: users).map User.text) ++ [')'] = '(' :: cs := by
      cases users with
      | nil => exact ⟨_, by rw [List.map_singleton, List.intercalate_singleton]; rfl⟩
      | cons u' users =>
          exact ⟨_, by rw [List.map_cons, List.map_cons, List.intercalate_cons_cons]; rfl⟩
    rw [hopen, hcs, quotedNames_opened (by decide), ← hcs, quotedNames_users h]
    simp [quotedNames]

theorem opened_usersText (users : List User) :
    quotedNames .opened (usersText users) = quotedNames .outside (usersText users) := by
  rw [usersText]
  split
  · rfl
  · exact quotedNames_opened (by decide) _

/-- In a plain line the names that are read are those of the processes. -/
theorem names_iff {listener : ListenerFact} {s : Socket} :
    listenerOwnerMatches listener (String.ofList s.text) = true ↔ Names listener s := by
  by_cases hplain : s.Plain
  · have hread : quotedNames .outside s.text = s.users.map User.name := by
      rw [Socket.text, quotedNames_quiet hplain.columns (opened_usersText s.users),
        quotedNames_usersText hplain.users]
    have howner : listenerOwnerMatches listener (String.ofList s.text) = true ↔
        Owner listener s := by
      rw [listenerOwnerMatches, String.toList_ofList, hread, Owner]
      unfold IsProcess
      split
      next => simp [List.any_map, List.any_eq_true, List.isPrefixOf_iff_prefix]
      next => simp
    rw [howner, Names]
    simp [hplain]
  · simp [Names, hplain]

/-! ## The line that is found -/

theorem newline_notMem_usersText {users : List User} (h : ∀ u ∈ users, '\n' ∉ u.text) :
    '\n' ∉ usersText users := by
  rw [usersText]
  split
  · exact List.not_mem_nil
  · have hentries : '\n' ∉ [','].intercalate (users.map User.text) := by
      refine notMem_intercalate (by decide) fun text htext ↦ ?_
      obtain ⟨u, hu, rfl⟩ := List.mem_map.mp htext
      exact h u hu
    simp only [List.mem_append, not_or]
    exact ⟨by decide, hentries, by decide⟩

theorem newline_notMem_text (s : Socket) : '\n' ∉ s.text := by
  rw [Socket.text, List.mem_append, not_or]
  exact ⟨s.oneLine, newline_notMem_usersText s.oneLineUsers⟩

theorem split_printed (sockets : List Socket) :
    Text.split '\n' (printed sockets) =
      sockets.map (fun s ↦ String.ofList s.text) ++ [""] := by
  have hlines : ∀ text ∈ sockets.map Socket.text ++ [[]], '\n' ∉ text := by
    intro text htext
    rcases List.mem_append.mp htext with hmem | hmem
    · obtain ⟨s, -, rfl⟩ := List.mem_map.mp hmem
      exact newline_notMem_text s
    · rw [List.mem_singleton.mp hmem]
      exact List.not_mem_nil
  rw [Text.split, printed, String.toList_ofList, List.splitOn_intercalate _ hlines (by simp),
    List.map_append, List.map_map]
  rfl

theorem includes_iff (s : Socket) (listener : ListenerFact) :
    Text.includes (String.ofList s.text) (location listener) = true ↔ Mentions listener s := by
  rw [Text.includes, Mentions, String.toList_ofList, List.any_eq_true, List.infix_iff_prefix_suffix]
  refine exists_congr fun text ↦ ?_
  rw [List.mem_tails, List.isPrefixOf_iff_prefix, and_comm]

/-- The first line that has the location in it decides. -/
theorem found_iff {listener : ListenerFact} {sockets : List Socket} :
    lineReport listener (printed sockets) = .owned ↔
      ∃ before first after, sockets = before ++ first :: after ∧
        (∀ t ∈ before, ¬Mentions listener t) ∧ Mentions listener first ∧ Names listener first := by
  rw [lineReport_owned_iff, listenerLine, split_printed, List.find?_append, List.find?_map]
  constructor
  · rintro ⟨line, hfind, howner⟩
    rcases Option.or_eq_some_iff.mp hfind with hfound | ⟨-, hlast⟩
    · obtain ⟨first, hfirst, rfl⟩ := Option.map_eq_some_iff.mp hfound
      obtain ⟨hmentions, before, after, hlines, hbefore⟩ := List.find?_eq_some_iff_append.mp hfirst
      refine ⟨before, first, after, hlines, fun t ht hin ↦ ?_,
        (includes_iff first listener).mp hmentions, names_iff.mp howner⟩
      have hnot := hbefore t ht
      rw [Function.comp_apply, (includes_iff t listener).mpr hin] at hnot
      cases hnot
    · rw [List.mem_singleton.mp (List.mem_of_find?_eq_some hlast),
        listenerOwnerMatches_empty] at howner
      cases howner
  · rintro ⟨before, first, after, hlines, hbefore, hfirst, hnames⟩
    refine ⟨String.ofList first.text, Option.or_eq_some_iff.mpr (.inl ?_), names_iff.mpr hnames⟩
    have hfind : sockets.find? ((fun line ↦ Text.includes line (location listener)) ∘
        fun s ↦ String.ofList s.text) = some first := by
      rw [List.find?_eq_some_iff_append]
      refine ⟨?_, before, after, hlines, fun t ht ↦ ?_⟩
      · rw [Function.comp_apply]
        exact (includes_iff first listener).mpr hfirst
      · have hnot := hbefore t ht
        rw [← includes_iff, Bool.not_eq_true] at hnot
        rw [Function.comp_apply, hnot]
        rfl
    rw [hfind, Option.map_some]

/-! ## When the report is exact -/

variable {listener : ListenerFact} {sockets : List Socket}

theorem exact_iff_owned {report : ListenerReport}
    (h : report ∈ [ListenerReport.missing, .otherOwner, .owned]) :
    Exact listener sockets (some (report.entry listener)) ↔
      (report = .owned ↔ Owns listener sockets) := by
  constructor
  · intro hexact
    refine ⟨fun howned ↦ hexact.owned (by rw [howned]), fun howns ↦ ?_⟩
    obtain ⟨hmissing, hother⟩ := hexact.kept howns
    simp only [List.mem_cons, List.not_mem_nil, or_false] at h
    rcases h with rfl | rfl | rfl
    · exact absurd rfl hmissing
    · exact absurd rfl hother
    · rfl
  · intro hiff
    refine ⟨fun hentry ↦ hiff.mp ?_, fun howns ↦ ?_⟩
    · by_contra hne
      exact entry_ne_owned listener hne (Option.some.inj hentry)
    · rw [hiff.mpr howns]
      refine ⟨fun heq ↦ ?_, fun heq ↦ ?_⟩
      · exact entry_ne_owned listener (by simp) (Option.some.inj heq).symm
      · exact entry_ne_owned listener (by simp) (Option.some.inj heq).symm

/-- A local end that is not in brackets has the location in it. -/
theorem mentions_of_local {s : Socket} (h : s.localEnd = location listener) :
    Mentions listener s := by
  refine ⟨s.front.toList, s.back.toList ++ usersText s.users, ?_⟩
  rw [Socket.text, h]
  simp only [List.append_assoc]

/-- Some line is the first that has the location in it, or none has it. -/
theorem first_mention (listener : ListenerFact) (sockets : List Socket) :
    (∀ t ∈ sockets, ¬Mentions listener t) ∨
      ∃ before first after, sockets = before ++ first :: after ∧
        (∀ t ∈ before, ¬Mentions listener t) ∧ Mentions listener first := by
  induction sockets with
  | nil => exact .inl fun t ht ↦ absurd ht List.not_mem_nil
  | cons s sockets ih =>
      by_cases hs : Mentions listener s
      · exact .inr ⟨[], s, sockets, rfl, fun t ht ↦ absurd ht List.not_mem_nil, hs⟩
      rcases ih with hnone | ⟨before, first, after, rfl, hbefore, hfirst⟩
      · exact .inl (List.forall_mem_cons.mpr ⟨hs, hnone⟩)
      · exact .inr ⟨s :: before, first, after, rfl, List.forall_mem_cons.mpr ⟨hs, hbefore⟩, hfirst⟩

/-- The first line that has the location in it is one. -/
theorem first_unique {before before' after after' : List Socket} {first first' : Socket}
    (hlines : before ++ first :: after = before' ++ first' :: after')
    (hbefore : ∀ t ∈ before, ¬Mentions listener t) (hfirst : Mentions listener first)
    (hbefore' : ∀ t ∈ before', ¬Mentions listener t) (hfirst' : Mentions listener first') :
    first = first' := by
  induction before generalizing before' with
  | nil =>
      cases before' with
      | nil => exact (List.cons.inj hlines).1
      | cons s before' =>
          obtain rfl : first = s := (List.cons.inj hlines).1
          exact absurd hfirst (hbefore' first List.mem_cons_self)
  | cons s before ih =>
      cases before' with
      | nil =>
          obtain rfl : s = first' := (List.cons.inj hlines).1
          exact absurd hfirst' (hbefore s List.mem_cons_self)
      | cons s' before' =>
          exact ih (List.cons.inj hlines).2 (fun t ht ↦ hbefore t (List.mem_cons_of_mem _ ht))
            fun t ht ↦ hbefore' t (List.mem_cons_of_mem _ ht)

theorem report_exact_iff :
    (lineReport listener (printed sockets) = .owned ↔ Owns listener sockets) ↔
      ¬Misread listener sockets := by
  rw [found_iff]
  constructor
  · intro hiff hmisread
    cases hmisread with
    | unspelled s hs hlocal howner hnone =>
        obtain ⟨before, first, after, rfl, -, hfirst, -⟩ := hiff.mpr ⟨s, hs, .inr hlocal, howner⟩
        exact hnone first (List.mem_append_right _ List.mem_cons_self) hfirst
    | shadowed s hs hlocal howner before after first hlines hbefore hfirst hother =>
        obtain ⟨before', first', after', hlines', hbefore', hfirst', hnames⟩ :=
          hiff.mpr ⟨s, hs, hlocal, howner⟩
        obtain rfl := first_unique (hlines.symm.trans hlines') hbefore hfirst hbefore' hfirst'
        exact hother hnames
    | borrowed hnot before after first hlines hbefore hfirst howner =>
        obtain ⟨s, hs, hlocal, howner'⟩ := hiff.mp ⟨before, first, after, hlines, hbefore, hfirst,
          howner⟩
        exact hnot s hs hlocal howner'
  · intro hclear
    constructor
    · rintro ⟨before, first, after, hlines, hbefore, hfirst, hnames⟩
      by_contra hnot
      exact hclear (.borrowed (fun s hs hlocal howner ↦ hnot ⟨s, hs, hlocal, howner⟩)
        before after first hlines hbefore hfirst hnames)
    · rintro ⟨s, hs, hlocal, howner⟩
      rcases first_mention listener sockets with hnone | ⟨before, first, after, hlines, hbefore,
        hfirst⟩
      · refine absurd (.unspelled s hs ?_ howner hnone) hclear
        exact hlocal.resolve_left fun hsame ↦ hnone s hs (mentions_of_local hsame)
      · refine ⟨before, first, after, hlines, hbefore, hfirst, ?_⟩
        by_contra hother
        exact hclear (.shadowed s hs hlocal howner before after first hlines hbefore hfirst hother)

theorem exact_unanswered {report : ListenerReport} (h : report ≠ .owned) :
    Exact listener [] (some (report.entry listener)) where
  owned hentry := absurd (Option.some.inj hentry) (entry_ne_owned listener h)
  kept howns := by
    obtain ⟨s, hs, -⟩ := howns
    cases hs

theorem not_misread_nil : ¬Misread listener [] := by
  rintro (⟨s, hs⟩ | ⟨s, hs⟩ | ⟨-, before, after, first, hlines⟩)
  · cases hs
  · cases hs
  · exact absurd hlines (by simp)

theorem evidence_exact_iff (listener : ListenerFact) (evidence : Evidence) :
    Exact listener evidence.sockets (some ((listenerReport listener evidence.result).entry listener)) ↔
      ¬Misread listener evidence.sockets := by
  cases evidence with
  | unasked => exact iff_of_true (exact_unanswered (by simp [listenerReport, Evidence.result])) not_misread_nil
  | failed probe h =>
      refine iff_of_true (exact_unanswered ?_) not_misread_nil
      rw [Evidence.result, listenerReport]
      split
      · simp
      next htimed =>
        split
        · simp
        next hcode => exact absurd (h.resolve_left htimed) (by simp [hcode])
        · simp
  | answered sockets stderr =>
      have hreport : listenerReport listener (Evidence.answered sockets stderr).result =
          lineReport listener (printed sockets) := rfl
      rw [hreport, exact_iff_owned (lineReport_cases _ _)]
      exact report_exact_iff

/-! ## The entries of a component -/

/-- What is observed of the listener at the given place, after the unit. -/
def entryAt (fact : HealthComponentFact) (result : HealthResult) (i : ℕ) : Option String :=
  result.observed[(stated fact.unit).toList.length + i]?

theorem unitFindings_observed (f : Findings) (unit : CommandResult) :
    (unitFindings f unit).observed.length = f.observed.length + 1 := by
  unfold unitFindings
  split
  · simp [Findings.note]
  split
  · simp [Findings.note]
  dsimp only
  split
  · simp [Findings.note]
  split
  · simp [Findings.note]
  split <;> simp [Findings.note]

theorem add_observed (listener : ListenerFact) (report : ListenerReport) (f : Findings) :
    (report.add listener f).observed = f.observed ++ [report.entry listener] := by
  cases report <;> rfl

theorem observed_foldl (tcpEvidence unixEvidence : Option CommandResult) (f : Findings)
    (listeners : List ListenerFact) :
    (listeners.foldl (listenerFindings tcpEvidence unixEvidence) f).observed =
      f.observed ++ listeners.map fun listener ↦
        (listenerReport listener (evidenceOf tcpEvidence unixEvidence listener)).entry listener := by
  induction listeners generalizing f with
  | nil => simp
  | cons listener rest ih =>
      rw [List.foldl_cons, ih, listenerFindings_eq, add_observed, List.append_assoc]
      rfl

theorem entryAt_collect (run : CommandRunner) (call : ℕ)
    (tcpEvidence unixEvidence : Option CommandResult) (fact : HealthComponentFact) (i : ℕ) :
    entryAt fact (collectComponent run call tcpEvidence unixEvidence fact) i =
      (fact.listeners.getD [])[i]?.map fun listener ↦
        (listenerReport listener (evidenceOf tcpEvidence unixEvidence listener)).entry listener := by
  have hobserved : (collectComponent run call tcpEvidence unixEvidence fact).observed =
      (stage run call tcpEvidence unixEvidence fact).observed := rfl
  have hunit : (unitStage run call fact).observed.length = (stated fact.unit).toList.length := by
    unfold unitStage
    cases stated fact.unit with
    | none => rfl
    | some unit => exact unitFindings_observed _ _
  rw [entryAt, hobserved, stage, observed_foldl, ← hunit,
    List.getElem?_append_right (Nat.le_add_right _ _), Nat.add_sub_cancel_left, List.getElem?_map]

theorem evidenceOf_result (tcp unix : Evidence) (listener : ListenerFact) :
    evidenceOf tcp.result unix.result listener = (tcp.about unix listener).result := by
  cases listener <;> rfl

/-- The listeners are reported as they are exactly where the lines of `ss` mislead about
none of them. -/
theorem listeners_exact_iff (run : CommandRunner) (call : ℕ) (tcp unix : Evidence)
    (fact : HealthComponentFact) :
    (∀ i listener, (fact.listeners.getD [])[i]? = some listener →
      Exact listener (tcp.about unix listener).sockets
        (entryAt fact (collectComponent run call tcp.result unix.result fact) i)) ↔
      ∀ listener ∈ fact.listeners.getD [], ¬Misread listener (tcp.about unix listener).sockets := by
  have hentry : ∀ i listener, (fact.listeners.getD [])[i]? = some listener →
      (Exact listener (tcp.about unix listener).sockets
        (entryAt fact (collectComponent run call tcp.result unix.result fact) i) ↔
          ¬Misread listener (tcp.about unix listener).sockets) := by
    intro i listener hi
    rw [entryAt_collect, hi, Option.map_some, evidenceOf_result]
    exact evidence_exact_iff listener _
  constructor
  · intro hexact listener hmem
    obtain ⟨i, hi⟩ := List.mem_iff_getElem?.mp hmem
    exact (hentry i listener hi).mp (hexact i listener hi)
  · intro hclear i listener hi
    exact (hentry i listener hi).mpr (hclear listener (List.mem_of_getElem? hi))

/-- Only a second desktop listens, on a port that begins like the declared one. -/
def secondDesktop : Socket where
  front := "LISTEN 0 2 "
  localEnd := "127.0.0.1:33890"
  back := " 0.0.0.0:* "
  users := [⟨"xrdp", ",pid=481,fd=11"⟩]
  oneLine := by decide
  oneLineUsers := by decide

def desktopListener : ListenerFact := .tcp "127.0.0.1" (Number.ofInt 3389) "xrdp" none

def desktopFact : HealthComponentFact :=
  ⟨"desktop.xrdp", none, none, none, some [desktopListener], .automatic⟩

theorem longer_port_borrowed :
    entryAt desktopFact (collectComponent (fun _ _ ↦ none) 0
        (Evidence.answered [secondDesktop] "").result Evidence.unasked.result desktopFact) 0 =
      some "xrdp owns 127.0.0.1:3389" ∧
    ¬Exact desktopListener [secondDesktop]
      (entryAt desktopFact (collectComponent (fun _ _ ↦ none) 0
        (Evidence.answered [secondDesktop] "").result Evidence.unasked.result desktopFact) 0) := by
  have hentry : entryAt desktopFact (collectComponent (fun _ _ ↦ none) 0
      (Evidence.answered [secondDesktop] "").result Evidence.unasked.result desktopFact) 0 =
        some "xrdp owns 127.0.0.1:3389" := by decide +kernel
  refine ⟨hentry, fun hexact ↦ ?_⟩
  rw [hentry] at hexact
  obtain ⟨s, hs, hlocal, -⟩ := hexact.owned (by decide +kernel)
  obtain rfl := List.mem_singleton.mp hs
  revert hlocal
  rw [IsLocal]
  decide +kernel

end RemoteDevbox.Box.Collect
