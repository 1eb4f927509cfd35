import RemoteDevbox.Lib.Lists
import Mathlib.Data.List.DropRight
import Mathlib.Data.List.Infix
import Mathlib.Tactic.Common

namespace RemoteDevbox.Box.GatePath

/-!
# The gate on the search path

Every login shell sources `heavy-gate-path.sh`, which puts the directory of the
gate back to the front of `PATH`.
-/

/-- A directory that can be an entry of `PATH`. -/
structure GateDir where
  path : List Char
  ne_nil : path ≠ []
  colon : ':' ∉ path
  newline : '\n' ∉ path

def defaultGateDir : GateDir :=
  ⟨"/usr/local/lib/agent-devbox/heavy-command-gate".toList, by decide, by decide, by decide⟩

/-- What the file finds: the gate and whether it is a directory, the roster if it
can be read, who is logged in, and which directories hold `tr` and `paste`; the empty entry
is the working directory. -/
structure Login where
  dir : GateDir
  installed : Bool
  roster : Option (List Char)
  user : List Char
  hasTr : List Char → Bool
  hasPaste : List Char → Bool

/-- What `read` goes through; a last line may lack its newline. -/
def readLines (text : List Char) : List (List Char) :=
  if (text.splitOn '\n').getLast? = some [] then (text.splitOn '\n').dropLast
  else text.splitOn '\n'

def Login.listed (login : Login) : Bool :=
  match login.roster with
  | none => false
  | some roster => (readLines roster).contains login.user

def entries (path : List Char) : List (List Char) := path.splitOn ':'

/-- `tr ':' '\n'` -/
def tr (text : List Char) : List Char := text.map fun c ↦ if c = ':' then '\n' else c

/-- An entry that stays behind the gate. -/
def other (dir : GateDir) (entry : List Char) : Bool := !entry.isEmpty && entry != dir.path

/-- The pipeline behind `__devbox_new_path`; `$( )` drops the newlines at the end. -/
def pipeline (dir : GateDir) (path : List Char) : List Char :=
  ([':'].intercalate ((readLines (tr (path ++ ['\n']))).filter (other dir)) ++ ['\n']).rdropWhile
    (· == '\n')

/-- Both programs of the pipeline are looked up on the path that it reads. -/
def Login.finds (login : Login) (path : List Char) : Bool :=
  (entries path).any login.hasTr && (entries path).any login.hasPaste

/-- Without one of its programs the pipeline prints nothing. -/
def newPath (login : Login) (path : List Char) : List Char :=
  if login.finds path then pipeline login.dir path else []

/-- `PATH` after the file. -/
def sourced (login : Login) (path : List Char) : List Char :=
  if (':' :: login.dir.path ++ [':']) <:+: (':' :: path ++ [':']) then
    login.dir.path ++ ':' :: newPath login path
  else if login.listed && login.installed then login.dir.path ++ ':' :: path
  else path

/-! ## What is wanted -/

/-- The gate comes first and once, the others stay in order, no entry becomes
empty, and a second time changes nothing. -/
structure Reorders (login : Login) (path : List Char) : Prop where
  first : (entries (sourced login path)).head? = some login.dir.path
  once : (entries (sourced login path)).count login.dir.path = 1
  others : (entries (sourced login path)).filter (other login.dir) =
    (entries path).filter (other login.dir)
  noEmpty : [] ∈ entries (sourced login path) → [] ∈ entries path
  again : sourced login (sourced login path) = sourced login path

def Expected (login : Login) (path : List Char) : Prop :=
  if login.listed then Reorders login path else sourced login path = path

/-! ## What the file does -/

/-- The gate is on the path already, or it is handed out. -/
def Gated (login : Login) (path : List Char) : Prop :=
  login.dir.path ∈ entries path ∨ (login.listed = true ∧ login.installed = true)

/-- What stands between the colons and the newlines of a path. -/
def pieces (path : List Char) : List (List Char) := (tr path).splitOn '\n'

/-- Both programs are in directories that the path names. -/
def Equipped (login : Login) (path : List Char) : Prop :=
  (∃ e ∈ pieces path, e ≠ [] ∧ login.hasTr e = true) ∧
    ∃ e ∈ pieces path, e ≠ [] ∧ login.hasPaste e = true

/-- The parts that hold of every path, and what the others need. A path that is
given the gate keeps its empty entries until the file runs again, and a path that has the gate
is only put in order where the programs of the pipeline are found on it. -/
structure Leads (login : Login) (path : List Char) : Prop where
  first : (entries (sourced login path)).head? = some login.dir.path
  once : (entries (sourced login path)).count login.dir.path = 1
  others : '\n' ∉ path → (login.dir.path ∈ entries path → login.finds path = true) →
    (entries (sourced login path)).filter (other login.dir) =
      (entries path).filter (other login.dir)
  noEmpty : '\n' ∉ path → (login.dir.path ∈ entries path → login.finds path = true) →
    (∃ e ∈ entries path, e ≠ login.dir.path) → [] ∈ entries (sourced login path) →
      [] ∈ entries path
  again : path = [] ∨
      (login.dir.path ∈ entries path ∧ (Equipped login path ∨ login.finds path = false)) ∨
      ([] ∉ entries path ∧ '\n' ∉ path ∧ Equipped login path) →
    sourced login (sourced login path) = sourced login path

/-! ## Entries -/

section Entries

variable {dir : GateDir} {path : List Char}

theorem entries_ne_nil (path : List Char) : entries path ≠ [] := List.splitOn_ne_nil _ _

theorem intercalate_entries (path : List Char) : [':'].intercalate (entries path) = path :=
  List.intercalate_splitOn _

theorem entries_intercalate {es : List (List Char)} (hes : ∀ e ∈ es, ':' ∉ e) (hne : es ≠ []) :
    entries ([':'].intercalate es) = es := List.splitOn_intercalate ':' hes hne

theorem entries_append (a b : List Char) : entries (a ++ ':' :: b) = entries a ++ entries b :=
  List.splitOn_append_cons_self a b

theorem entries_dir : entries dir.path = [dir.path] := List.splitOn_eq_singleton dir.colon

theorem mem_entries_of_block (h : (':' :: dir.path ++ [':']) <:+: (':' :: path ++ [':'])) :
    dir.path ∈ entries path := by
  obtain ⟨a, b, hab⟩ := h
  have hpath : entries (':' :: path ++ [':']) = [] :: (entries path ++ [[]]) :=
    (entries_append [] (path ++ [':'])).trans (congrArg ([[]] ++ ·) (entries_append path []))
  have hinfix : entries (a ++ (':' :: dir.path ++ [':']) ++ b) =
      entries a ++ dir.path :: entries b := by
    rw [List.append_assoc, List.append_assoc, List.cons_append, entries_append]
    exact congrArg (entries a ++ ·)
      ((entries_append dir.path b).trans (congrArg (· ++ entries b) entries_dir))
  rw [hab, hpath] at hinfix
  -- The empty texts before the first and behind the last colon are no entries.
  obtain ⟨first, before, hbefore⟩ := List.exists_cons_of_ne_nil (entries_ne_nil a)
  rw [hbefore, List.cons_append] at hinfix
  have hsame := (List.cons.inj hinfix).2
  obtain ⟨after, last, hafter⟩ : ∃ after last, entries b = after ++ [last] :=
    ⟨_, _, (List.dropLast_append_getLast (entries_ne_nil b)).symm⟩
  rw [hafter, ← List.cons_append, ← List.append_assoc] at hsame
  rw [(List.append_inj' hsame rfl).1]
  exact List.mem_append_right _ List.mem_cons_self

/-- The pattern of the `case` finds whole entries. -/
theorem infix_iff : (':' :: dir.path ++ [':']) <:+: (':' :: path ++ [':']) ↔
    dir.path ∈ entries path := by
  refine ⟨mem_entries_of_block, fun h ↦ ?_⟩
  obtain ⟨before, after, hsplit⟩ := List.append_of_mem h
  have hpath : ':' :: path = before.flatMap (':' :: ·) ++ (':' :: dir.path) ++
      after.flatMap (':' :: ·) := by
    rw [← intercalate_entries path, cons_intercalate ':' (entries_ne_nil path), hsplit]
    simp
  have hcolon : ∃ rest, after.flatMap (':' :: ·) ++ [':'] = ':' :: rest := by
    cases after with
    | nil => exact ⟨[], rfl⟩
    | cons e after => exact ⟨_, rfl⟩
  obtain ⟨rest, hrest⟩ := hcolon
  refine ⟨before.flatMap (':' :: ·), rest, ?_⟩
  rw [hpath, List.append_assoc _ _ [':'], hrest]
  simp

end Entries

/-! ## The pipeline -/

section Pipeline

variable (dir : GateDir) (path : List Char)

/-- The lines that the loop prints. -/
def kept : List (List Char) := (pieces path).filter (other dir)

theorem readLines_tr : readLines (tr (path ++ ['\n'])) = (tr path).splitOn '\n' := by
  have hsplit : (tr (path ++ ['\n'])).splitOn '\n' = (tr path).splitOn '\n' ++ [[]] := by
    rw [tr, List.map_append]
    exact List.splitOn_append_cons_self _ []
  rw [readLines, hsplit, if_pos (by simp), List.dropLast_concat]

variable {dir path}

theorem tr_splitOn (h : '\n' ∉ path) : (tr path).splitOn '\n' = entries path := by
  induction path with
  | nil => rfl
  | cons c path ih =>
      obtain ⟨hc, hpath⟩ := not_or.mp fun hor ↦ h (List.mem_cons.mpr hor)
      by_cases hcolon : c = ':'
      · subst hcolon
        have hleft : tr (':' :: path) = [] ++ '\n' :: tr path := rfl
        rw [hleft, List.splitOn_append_cons_self, ih hpath]
        exact (entries_append [] path).symm
      · have hleft : tr (c :: path) = c :: tr path := by simp [tr, hcolon]
        rw [hleft, entries, List.splitOn_cons_eq_if_modifyHead, List.splitOn_cons_eq_if_modifyHead,
          if_neg (by simpa using Ne.symm hc), if_neg (by simpa using hcolon), ih hpath, entries]

theorem kept_of_plain (h : '\n' ∉ path) : kept dir path = (entries path).filter (other dir) := by
  rw [kept, pieces, tr_splitOn h]

theorem other_of_kept {e : List Char} (h : e ∈ kept dir path) : other dir e = true :=
  (List.mem_filter.mp h).2

theorem colon_of_kept {e : List Char} (h : e ∈ kept dir path) : ':' ∉ e := by
  intro hcolon
  have hmem := (not_mem_of_mem_splitOn (List.mem_filter.mp h).1).2 ':' hcolon
  obtain ⟨c, _, hc⟩ := List.mem_map.mp hmem
  split at hc
  · exact absurd hc (by decide)
  · contradiction

theorem newline_of_kept {e : List Char} (h : e ∈ kept dir path) : '\n' ∉ e :=
  (not_mem_of_mem_splitOn (List.mem_filter.mp h).1).1

theorem pipeline_eq : pipeline dir path = [':'].intercalate (kept dir path) := by
  rw [pipeline, readLines_tr]
  change ([':'].intercalate (kept dir path) ++ ['\n']).rdropWhile (· == '\n') = _
  rw [List.rdropWhile_concat_pos _ _ _ (by rfl)]
  have hplain : '\n' ∉ [':'].intercalate (kept dir path) :=
    notMem_intercalate (by decide) fun e he ↦ newline_of_kept he
  refine List.rdropWhile_eq_self_iff.mpr fun hne hlast ↦ hplain ?_
  rw [← beq_iff_eq.mp hlast]
  exact List.getLast_mem hne

/-- The file's new path, entry by entry. -/
theorem entries_pipeline (dir : GateDir) (path : List Char) :
    entries (dir.path ++ ':' :: pipeline dir path) =
      dir.path :: if kept dir path = [] then [[]] else kept dir path := by
  rw [entries_append, entries_dir, pipeline_eq]
  split
  · rename_i hnone
    rw [hnone]
    rfl
  · rename_i hsome
    rw [entries_intercalate (fun e he ↦ colon_of_kept he) hsome]
    rfl

theorem newline_pipeline : '\n' ∉ dir.path ++ ':' :: pipeline dir path := by
  rw [pipeline_eq]
  intro hmem
  rcases List.mem_append.mp hmem with hmem | hmem
  · exact dir.newline hmem
  · rcases List.mem_cons.mp hmem with hmem | hmem
    · exact absurd hmem (by decide)
    · exact notMem_intercalate (by decide) (fun e he ↦ newline_of_kept he) hmem

theorem not_other_dir : ¬other dir dir.path = true := by simp [other]

theorem not_other_nil : ¬other dir [] = true := Bool.false_ne_true

theorem filter_kept : (kept dir path).filter (other dir) = kept dir path :=
  List.filter_eq_self.mpr fun _ he ↦ other_of_kept he

/-- What was printed once is printed again. -/
theorem kept_pipeline : kept dir (dir.path ++ ':' :: pipeline dir path) = kept dir path := by
  rw [kept_of_plain newline_pipeline, entries_pipeline,
    List.filter_cons_of_neg not_other_dir]
  split
  · rename_i hnone
    rw [hnone]
    rfl
  · exact filter_kept

theorem pipeline_idem :
    pipeline dir (dir.path ++ ':' :: pipeline dir path) = pipeline dir path := by
  rw [pipeline_eq, kept_pipeline, pipeline_eq]

/-- An unbroken path behind the gate is printed as it is. -/
theorem pipeline_cons (hdir : dir.path ∉ entries path) (hempty : [] ∉ entries path)
    (hpath : '\n' ∉ path) : pipeline dir (dir.path ++ ':' :: path) = path := by
  have hplain : '\n' ∉ dir.path ++ ':' :: path := by
    intro hmem
    rcases List.mem_append.mp hmem with hmem | hmem
    · exact dir.newline hmem
    · rcases List.mem_cons.mp hmem with hmem | hmem
      · exact absurd hmem (by decide)
      · exact hpath hmem
  have hall : (entries path).filter (other dir) = entries path := by
    refine List.filter_eq_self.mpr fun e he ↦ ?_
    have hnil : e ≠ [] := fun heq ↦ hempty (heq ▸ he)
    have hne : e ≠ dir.path := fun heq ↦ hdir (heq ▸ he)
    simp [other, hnil, hne]
  rw [pipeline_eq, kept_of_plain hplain, entries_append, entries_dir, List.singleton_append,
    List.filter_cons_of_neg not_other_dir, hall, intercalate_entries]

end Pipeline

/-! ## Either branch -/

section Branches

variable {login : Login} {path : List Char}

theorem sourced_of_mem (h : login.dir.path ∈ entries path) :
    sourced login path = login.dir.path ++ ':' :: newPath login path := by
  rw [sourced, if_pos (infix_iff.mpr h)]

theorem sourced_of_notMem (h : login.dir.path ∉ entries path) : sourced login path =
    if login.listed && login.installed then login.dir.path ++ ':' :: path else path := by
  rw [sourced, if_neg fun hin ↦ h (infix_iff.mp hin)]

theorem newPath_found (h : login.finds path = true) : newPath login path = pipeline login.dir path :=
  if_pos h

theorem newPath_lost (h : login.finds path = false) : newPath login path = [] :=
  if_neg (Bool.eq_false_iff.mp h)

theorem mem_entries_gate (rest : List Char) :
    login.dir.path ∈ entries (login.dir.path ++ ':' :: rest) := by
  rw [entries_append, entries_dir]
  exact List.mem_cons_self

/-- Nothing is left behind the gate to be printed anew. -/
theorem newPath_gate : newPath login (login.dir.path ++ [':']) = [] := by
  rw [newPath]
  split
  · have hnone : kept login.dir (login.dir.path ++ [':']) = [] := by
      have hplain : '\n' ∉ login.dir.path ++ [':'] := by
        intro hmem
        rcases List.mem_append.mp hmem with hmem | hmem
        · exact login.dir.newline hmem
        · exact absurd (List.mem_singleton.mp hmem) (by decide)
      have hentries : entries (login.dir.path ++ [':']) = [login.dir.path, []] := by
        rw [entries_append, entries_dir]
        rfl
      rw [kept_of_plain hplain, hentries, List.filter_cons_of_neg not_other_dir,
        List.filter_cons_of_neg not_other_nil, List.filter_nil]
    rw [pipeline_eq, hnone]
    rfl
  · rfl

/-- The programs are found again behind the gate. -/
theorem finds_of_equipped (h : Equipped login path) {rest : List Char}
    (hrest : ∀ e ∈ pieces path, e ≠ [] → e ≠ login.dir.path → e ∈ entries rest) :
    login.finds (login.dir.path ++ ':' :: rest) = true := by
  have hany : ∀ {has : List Char → Bool}, (∃ e ∈ pieces path, e ≠ [] ∧ has e = true) →
      (entries (login.dir.path ++ ':' :: rest)).any has = true := by
    rintro has ⟨e, he, hne, hhas⟩
    refine List.any_eq_true.mpr ⟨e, ?_, hhas⟩
    rw [entries_append, entries_dir, List.singleton_append]
    by_cases hgate : e = login.dir.path
    · exact hgate ▸ List.mem_cons_self
    · exact List.mem_cons_of_mem _ (hrest e he hne hgate)
  exact (Bool.and_eq_true _ _).mpr ⟨hany h.1, hany h.2⟩

/-- The gate is on the path, and the entries are printed anew. -/
theorem leads_of_found (h : login.dir.path ∈ entries path) (hfinds : login.finds path = true) :
    Leads login path := by
  have hentries := entries_pipeline login.dir path
  have hsourced : sourced login path = login.dir.path ++ ':' :: pipeline login.dir path := by
    rw [sourced_of_mem h, newPath_found hfinds]
  have hrest : login.dir.path ∉ kept login.dir path := by
    intro hmem
    exact not_other_dir (other_of_kept hmem)
  refine ⟨?_, ?_, ?_, ?_, ?_⟩
  · rw [hsourced, hentries]
    rfl
  · rw [hsourced, hentries, List.count_cons_self]
    split
    · rw [List.count_eq_zero.mpr]
      simpa using login.dir.ne_nil
    · rw [List.count_eq_zero.mpr hrest]
  · intro hplain _
    rw [hsourced, hentries, List.filter_cons_of_neg not_other_dir, ← kept_of_plain hplain]
    split
    · rename_i hnone
      rw [hnone]
      rfl
    · exact filter_kept
  · rintro hplain - ⟨e, he, hne⟩ hempty
    rw [hsourced, hentries] at hempty
    by_cases hnil : e = []
    · rwa [hnil] at he
    · have hkept : e ∈ kept login.dir path := by
        rw [kept_of_plain hplain]
        exact List.mem_filter.mpr ⟨he, by simp [other, hnil, hne]⟩
      rw [if_neg (List.ne_nil_of_mem hkept)] at hempty
      rcases List.mem_cons.mp hempty with hempty | hempty
      · exact absurd hempty.symm login.dir.ne_nil
      · exact absurd (other_of_kept hempty) not_other_nil
  · intro hcases
    have hequipped : Equipped login path := by
      rcases hcases with rfl | ⟨-, hequipped | hlost⟩ | ⟨-, -, hequipped⟩
      · exact absurd (List.mem_singleton.mp h) login.dir.ne_nil
      · exact hequipped
      · exact absurd (hfinds.symm.trans hlost) Bool.noConfusion
      · exact hequipped
    have hagain : login.finds (login.dir.path ++ ':' :: pipeline login.dir path) = true := by
      refine finds_of_equipped hequipped fun e he hnil hne ↦ ?_
      have hkept : e ∈ kept login.dir path :=
        List.mem_filter.mpr ⟨he, by simp [other, hnil, hne]⟩
      have hbehind : entries (pipeline login.dir path) = kept login.dir path := by
        rw [pipeline_eq]
        exact entries_intercalate (fun e he ↦ colon_of_kept he) (List.ne_nil_of_mem hkept)
      rwa [hbehind]
    rw [hsourced, sourced_of_mem (mem_entries_gate _), newPath_found hagain, pipeline_idem]

/-- The gate is on the path, and nothing but the gate is left. -/
theorem leads_of_lost (h : login.dir.path ∈ entries path) (hlost : login.finds path = false) :
    Leads login path := by
  have hsourced : sourced login path = login.dir.path ++ [':'] := by
    rw [sourced_of_mem h, newPath_lost hlost]
  have hentries : entries (sourced login path) = [login.dir.path, []] := by
    rw [hsourced, entries_append, entries_dir]
    rfl
  have hnot : ¬(login.dir.path ∈ entries path → login.finds path = true) :=
    fun hfinds ↦ Bool.noConfusion ((hfinds h).symm.trans hlost)
  refine ⟨?_, ?_, fun _ hfinds ↦ absurd hfinds hnot, fun _ hfinds ↦ absurd hfinds hnot, fun _ ↦ ?_⟩
  · rw [hentries]
    rfl
  · rw [hentries, List.count_cons_self, List.count_eq_zero.mpr]
    simpa using login.dir.ne_nil
  · rw [hsourced, sourced_of_mem (mem_entries_gate []), newPath_gate]

/-- The gate is handed out: the path follows it as it is. -/
theorem leads_of_listed (h : login.dir.path ∉ entries path) (hlisted : login.listed = true)
    (hinstalled : login.installed = true) : Leads login path := by
  have hsourced : sourced login path = login.dir.path ++ ':' :: path := by
    rw [sourced_of_notMem h, hlisted, hinstalled]
    rfl
  have hentries : entries (sourced login path) = login.dir.path :: entries path := by
    rw [hsourced, entries_append, entries_dir]
    rfl
  refine ⟨?_, ?_, ?_, ?_, ?_⟩
  · rw [hentries]
    rfl
  · rw [hentries, List.count_cons_self, List.count_eq_zero.mpr h]
  · intro _ _
    rw [hentries]
    exact List.filter_cons_of_neg not_other_dir
  · rintro _ _ _ hempty
    rw [hentries] at hempty
    exact (List.mem_cons.mp hempty).resolve_left (Ne.symm login.dir.ne_nil)
  · intro hcases
    rw [hsourced, sourced_of_mem (mem_entries_gate path)]
    rcases hcases with rfl | ⟨hgate, -⟩ | ⟨hempty, hplain, hequipped⟩
    · rw [newPath_gate]
    · exact absurd hgate h
    · have hagain : login.finds (login.dir.path ++ ':' :: path) = true := by
        refine finds_of_equipped hequipped fun e he _ _ ↦ ?_
        rwa [pieces, tr_splitOn hplain] at he
      rw [newPath_found hagain, pipeline_cons h hempty hplain]

/-- Of every path, every user and every roster. -/
theorem sourced_leads (login : Login) (path : List Char) :
    (Gated login path → Leads login path) ∧ (¬Gated login path → sourced login path = path) := by
  constructor
  · intro hgated
    by_cases h : login.dir.path ∈ entries path
    · cases hfinds : login.finds path with
      | true => exact leads_of_found h hfinds
      | false => exact leads_of_lost h hfinds
    · obtain ⟨hlisted, hinstalled⟩ := hgated.resolve_left h
      exact leads_of_listed h hlisted hinstalled
  · intro hgated
    obtain ⟨h, hout⟩ := not_or.mp hgated
    rw [sourced_of_notMem h, if_neg]
    rwa [Bool.and_eq_true]

/-- Nothing is handed out where no shims are installed; a path that has the gate
is put in order for everyone. -/
theorem not_expected :
    ¬Expected ⟨defaultGateDir, false, some "ada\n".toList, "ada".toList,
        (· == "/usr/bin".toList), (· == "/usr/bin".toList)⟩ "/usr/bin".toList ∧
      ¬Expected ⟨defaultGateDir, true, none, "ada".toList, (· == "/usr/bin".toList),
        (· == "/usr/bin".toList)⟩
        ("/usr/bin".toList ++ ':' :: defaultGateDir.path) := by
  refine ⟨fun h ↦ ?_, fun h ↦ ?_⟩
  · exact absurd (show Reorders _ _ from h).first (by decide)
  · exact absurd (show sourced _ _ = _ from h) (by decide)

end Branches

end RemoteDevbox.Box.GatePath
