import RemoteDevbox.Account.Script

namespace RemoteDevbox.Account

/-!
# Where the account scripts write for a label

Each of the three scripts turns a label into the path `$VAULT/$label`. Only
`add` looks at the characters of the label.
-/

/-! ## Paths -/

abbrev Path := List (List Char)

/-- One more part of an absolute path; the root is its own parent. -/
def Path.step (path : Path) (part : List Char) : Path :=
  if part = [] ∨ part = ['.'] then path
  else if part = ['.', '.'] then path.dropLast
  else path ++ [part]

def parts (s : String) : Path := s.toList.splitOn '/'

def resolve (s : String) : Path := (parts s).foldl Path.step []

/-- `$VAULT/$label` -/
def labelDir (vault label : String) : String := vault ++ "/" ++ label

/-- The directory is a proper child of the vault, or inside one, and that child
is not one of the vault's own. -/
def InChild (vault dir : String) : Prop :=
  ∃ child rest, resolve dir = resolve vault ++ child :: rest ∧
    child ≠ ".lock".toList ∧ child ≠ ".backups".toList

theorem resolve_labelDir (vault label : String) :
    resolve (labelDir vault label) = (parts label).foldl Path.step (resolve vault) := by
  have hsplit : (labelDir vault label).toList = vault.toList ++ '/' :: label.toList := by
    rw [labelDir, String.toList_append, String.toList_append, List.append_assoc]
    rfl
  rw [resolve, parts, hsplit, List.splitOn_append_cons_self, List.foldl_append]
  rfl

/-- The names of a directory beside the vault's own that a label must not be. -/
def RESERVED : List String := [".", "..", ".lock", ".backups"]

theorem inChild_iff_of_noSlash {vault label : String} (hne : label ≠ "")
    (h : '/' ∉ label.toList) : InChild vault (labelDir vault label) ↔ label ∉ RESERVED := by
  have hparts : parts label = [label.toList] := List.splitOn_eq_singleton h
  have hchars : label.toList ≠ [] := fun hnil ↦ hne (String.toList_inj.mp hnil)
  have hlength : ∀ (path : Path) child rest, path.length ≤ (resolve vault).length →
      path ≠ resolve vault ++ child :: rest := by
    intro path child rest hle heq
    have hcount := congrArg List.length heq
    rw [List.length_append, List.length_cons] at hcount
    omega
  rw [InChild, resolve_labelDir, hparts, List.foldl_cons, List.foldl_nil, Path.step]
  by_cases hdot : label = "."
  · subst hdot
    refine iff_of_false ?_ (fun h ↦ h (by decide))
    rintro ⟨child, rest, heq, _⟩
    exact hlength _ child rest le_rfl heq
  by_cases hdots : label = ".."
  · subst hdots
    refine iff_of_false ?_ (fun h ↦ h (by decide))
    rintro ⟨child, rest, heq, _⟩
    refine hlength (resolve vault).dropLast child rest ?_ heq
    rw [List.length_dropLast]
    omega
  have hstep : ¬ (label.toList = [] ∨ label.toList = ['.']) := by
    rintro (hnil | heq)
    · exact hchars hnil
    · exact hdot (String.toList_inj.mp heq)
  have hstep' : label.toList ≠ ['.', '.'] := fun heq ↦ hdots (String.toList_inj.mp heq)
  rw [if_neg hstep, if_neg hstep']
  constructor
  · rintro ⟨child, rest, heq, hlock, hbackups⟩ hmem
    obtain ⟨rfl, _⟩ := List.cons.inj (List.append_cancel_left heq)
    simp only [RESERVED, List.mem_cons, List.not_mem_nil, or_false] at hmem
    rcases hmem with h | h | h | h
    · exact hdot h
    · exact hdots h
    · exact hlock (congrArg String.toList h)
    · exact hbackups (congrArg String.toList h)
  · intro hfree
    refine ⟨label.toList, [], rfl, fun heq ↦ hfree ?_, fun heq ↦ hfree ?_⟩
    · rw [String.toList_inj.mp heq]
      decide
    · rw [String.toList_inj.mp heq]
      decide

/-! ## The verbs of the three scripts -/

/-- `devbox-account.sh`, `devbox-codex-account.sh`, `devbox-opencode-account.sh`. -/
inductive Tool where
  | claude
  | codex
  | opencode

inductive Verb where
  | add
  | use
  | rm

/-- The argument loop of each script: options and a single label. -/
def accepted (label : String) : Bool := label != "" && label.toList.head? != some '-'

/-- What the checks of one command find. -/
structure Found where
  isDir : String → Bool
  isFile : String → Bool
  /-- The registry's active label, empty when there is none. -/
  active : String
  loggedIn : Bool
  /-- The same question, asked again under the lock. -/
  stillLoggedIn : Bool
  treeMatches : Bool
  /-- The parked credential's metadata disagrees with the parked identity. -/
  stale : Bool
  running : Bool
  locked : Bool
  force : Bool
  key : Bool

/-- A directory made, changed, moved or deleted for a label, or a file in it.
The temporary name of a file stands beside it. -/
structure Touch where
  label : String
  dir : String
  file : Option String
  deriving DecidableEq

def Confined (vault : String) (t : Touch) : Prop := InChild vault t.dir

def whole (vault label : String) : Touch := ⟨label, labelDir vault label, none⟩

def inside (vault label file : String) : Touch := ⟨label, labelDir vault label, some file⟩

/-- The files of a parked login, as they are written. -/
def parkedFiles : Tool → List String
  | .claude => ["identity.json.new", "credentials.json.new", "identity.json", "credentials.json"]
  | .codex => ["meta.json", "auth.json.tmp", "auth.json"]
  | .opencode => ["credentials.json", "meta.json"]

def park (tool : Tool) (vault label : String) : List Touch :=
  whole vault label :: (parkedFiles tool).map (inside vault label)

def cmdAdd (tool : Tool) (vault : String) (found : Found) (label : String) : List Touch :=
  if !plainLabel label then []
  else match tool with
  | .opencode =>
      if found.locked then []
      else if found.key || found.loggedIn then park .opencode vault label
      else [whole vault label]
  | tool => if !found.loggedIn || found.locked then [] else park tool vault label

/-- The part of `use` under the lock: it parks the active label, then `rest`. -/
def swap (tool : Tool) (vault : String) (found : Found) (healOnly : Bool) (rest : List Touch) :
    List Touch :=
  if !found.force && found.running then []
  else if found.locked then []
  else if found.stillLoggedIn && !healOnly then
    if found.active = "" then [] else park tool vault found.active ++ rest
  else rest

def cmdUse (tool : Tool) (vault : String) (found : Found) (label : String) : List Touch :=
  let dir := labelDir vault label
  let isActive := found.active == label && found.loggedIn
  if label = "" || !found.isDir dir then []
  else match tool with
  | .claude =>
      let healed := if found.stale then [inside vault label "credentials.json"] else []
      if !found.isFile (dir ++ "/identity.json") || !found.isFile (dir ++ "/credentials.json") then []
      else if isActive && found.treeMatches && !found.force then healed
      else swap .claude vault found isActive healed
  | .codex =>
      if !found.isFile (dir ++ "/auth.json") || isActive then []
      else swap .codex vault found false []
  | .opencode =>
      if !found.isFile (dir ++ "/credentials.json") || (isActive && found.treeMatches) then []
      else swap .opencode vault found false []

/-- `rm -rf` refuses an operand whose last part is `.` or `..`. -/
def refused (label : String) : Bool :=
  match ((parts label).filter (· ≠ [])).getLast? with
  | some part => part = ['.'] || part = ['.', '.']
  | none => false

def cmdRm (vault : String) (found : Found) (label : String) : List Touch :=
  if label = "" || !found.isDir (labelDir vault label) || found.active = label || found.locked
    || refused label then []
  else [whole vault label]

def touched (tool : Tool) (vault : String) (found : Found) (label : String) : Verb → List Touch
  | .add => cmdAdd tool vault found label
  | .use => cmdUse tool vault found label
  | .rm => cmdRm vault found label

/-! ## The labels whose paths stay in the vault -/

/-- Whatever one command finds, what it touches for the label is confined. The
active label of the registry is one that `add` took. -/
def StaysConfined (tool : Tool) (verb : Verb) (vault label : String) : Prop :=
  ∀ found argument, accepted argument = true →
    (found.active = "" ∨ (accepted found.active && plainLabel found.active) = true) →
    ∀ t ∈ touched tool vault found argument verb, t.label = label → Confined vault t

/-- `add` and the parking of the active label go wrong for the names that are no
names of their own; the checks of `use` and `rm` let paths through. -/
def ConfinedLabel (tool : Tool) (verb : Verb) (vault label : String) : Prop :=
  match verb, tool with
  | .add, _ => plainLabel label = true → label ∉ RESERVED
  | .use, .claude => accepted label = true → InChild vault (labelDir vault label)
  | .use, _ => accepted label = true → plainLabel label = true → label ∉ RESERVED
  | .rm, _ => accepted label = true → refused label = true ∨ InChild vault (labelDir vault label)

theorem noSlash_of_plain {label : String} (h : plainLabel label = true) : '/' ∉ label.toList := by
  intro hmem
  have hall := (Bool.and_eq_true_iff.mp h).2
  have hslash := List.all_eq_true.mp hall '/' hmem
  exact absurd hslash (by decide)

theorem inChild_iff_of_plain {vault label : String} (h : plainLabel label = true) :
    InChild vault (labelDir vault label) ↔ label ∉ RESERVED := by
  have hne : label ≠ "" := by simpa using (Bool.and_eq_true_iff.mp h).1
  exact inChild_iff_of_noSlash hne (noSlash_of_plain h)

theorem reserved_accepted : ∀ label ∈ RESERVED, accepted label = true := by decide

section

variable {tool : Tool} {vault label argument : String} {found : Found} {t : Touch}

theorem park_touch (h : t ∈ park tool vault label) :
    t.label = label ∧ t.dir = labelDir vault label := by
  rcases List.mem_cons.mp h with rfl | h
  · exact ⟨rfl, rfl⟩
  · obtain ⟨file, _, rfl⟩ := List.mem_map.mp h
    exact ⟨rfl, rfl⟩

theorem add_touch (h : t ∈ cmdAdd tool vault found label) :
    plainLabel label = true ∧ t.label = label ∧ t.dir = labelDir vault label := by
  unfold cmdAdd at h
  split at h
  · cases h
  · rename_i hplain
    refine ⟨by simpa using hplain, ?_⟩
    split at h
    · split at h
      · cases h
      · split at h
        · exact park_touch h
        · rw [List.mem_singleton.mp h]
          exact ⟨rfl, rfl⟩
    · split at h
      · cases h
      · exact park_touch h

theorem swap_touch {healOnly : Bool} {rest : List Touch}
    (h : t ∈ swap tool vault found healOnly rest) :
    (found.active ≠ "" ∧ t.label = found.active ∧ t.dir = labelDir vault found.active) ∨
      t ∈ rest := by
  unfold swap at h
  split at h
  · cases h
  · split at h
    · cases h
    · split at h
      · split at h
        · cases h
        · rename_i hactive
          rcases List.mem_append.mp h with h | h
          · exact .inl ⟨hactive, park_touch h⟩
          · exact .inr h
      · exact .inr h

theorem healed_touch {stale : Bool}
    (h : t ∈ if stale then [inside vault label "credentials.json"] else []) :
    t.label = label ∧ t.dir = labelDir vault label := by
  split at h
  · rw [List.mem_singleton.mp h]
    exact ⟨rfl, rfl⟩
  · cases h

/-- `use` touches the directory of the active label, and `devbox-account.sh`
also that of its own label. -/
theorem use_touch (h : t ∈ cmdUse tool vault found argument) :
    (found.active ≠ "" ∧ t.label = found.active ∧ t.dir = labelDir vault found.active) ∨
      (tool = .claude ∧ t.label = argument ∧ t.dir = labelDir vault argument) := by
  simp only [cmdUse] at h
  split at h
  · cases h
  · cases tool with
    | claude =>
        simp only at h
        split at h
        · cases h
        · split at h
          · exact .inr ⟨rfl, healed_touch h⟩
          · exact (swap_touch h).imp id fun h ↦ ⟨rfl, healed_touch h⟩
    | codex =>
        simp only at h
        split at h
        · cases h
        · exact .inl ((swap_touch h).resolve_right List.not_mem_nil)
    | opencode =>
        simp only at h
        split at h
        · cases h
        · exact .inl ((swap_touch h).resolve_right List.not_mem_nil)

theorem rm_touch (h : t ∈ cmdRm vault found label) :
    refused label = false ∧ t.label = label ∧ t.dir = labelDir vault label := by
  unfold cmdRm at h
  split at h
  · cases h
  · rename_i hpasses
    simp only [Bool.or_eq_true, not_or, Bool.not_eq_true] at hpasses
    rw [List.mem_singleton.mp h]
    exact ⟨hpasses.2, rfl, rfl⟩

end

/-- A machine where every check goes through. -/
def nothingInTheWay (active : String) : Found where
  isDir _ := true
  isFile _ := true
  active := active
  loggedIn := active = ""
  stillLoggedIn := true
  treeMatches := true
  stale := true
  running := false
  locked := false
  force := false
  key := true

theorem confined_of_label {tool : Tool} {verb : Verb} {vault label : String}
    (h : ConfinedLabel tool verb vault label) : StaysConfined tool verb vault label := by
  intro found argument haccepted hactive t ht hlabel
  have hparked : found.active ≠ "" → accepted found.active = true ∧ plainLabel found.active = true :=
    fun hne ↦ Bool.and_eq_true_iff.mp (hactive.resolve_left hne)
  cases verb with
  | add =>
      obtain ⟨hplain, heq, hdir⟩ := add_touch ht
      rw [hlabel] at heq
      subst heq
      rw [Confined, hdir]
      exact (inChild_iff_of_plain hplain).mpr (h hplain)
  | use =>
      rcases use_touch ht with ⟨hne, heq, hdir⟩ | ⟨rfl, heq, hdir⟩
      · obtain ⟨hacc, hplain⟩ := hparked hne
        rw [hlabel] at heq
        subst heq
        rw [Confined, hdir]
        cases tool with
        | claude => exact h hacc
        | codex => exact (inChild_iff_of_plain hplain).mpr (h hacc hplain)
        | opencode => exact (inChild_iff_of_plain hplain).mpr (h hacc hplain)
      · rw [hlabel] at heq
        subst heq
        rw [Confined, hdir]
        exact h haccepted
  | rm =>
      obtain ⟨hrefused, heq, hdir⟩ := rm_touch ht
      rw [hlabel] at heq
      subst heq
      rw [Confined, hdir]
      refine (h haccepted).resolve_left ?_
      rw [hrefused]
      exact Bool.false_ne_true

theorem label_of_confined {tool : Tool} {verb : Verb} {vault label : String}
    (h : StaysConfined tool verb vault label) : ConfinedLabel tool verb vault label := by
  have hself : ∀ found, (found.active = "") → accepted label = true →
      ∀ t ∈ touched tool vault found label verb, t.label = label → InChild vault t.dir :=
    fun found hnone hacc ↦ h found label hacc (.inl hnone)
  cases verb with
  | add =>
      intro hplain hreserved
      have hacc := reserved_accepted label hreserved
      have hwhole : whole vault label ∈ touched tool vault (nothingInTheWay "") label .add := by
        cases tool <;> simp [touched, cmdAdd, hplain, nothingInTheWay, park]
      have hchild := hself _ rfl hacc _ hwhole rfl
      exact (inChild_iff_of_plain hplain).mp hchild hreserved
  | use =>
      have hparks : ∀ tool' : Tool, tool = tool' → tool' ≠ .claude → accepted label = true →
          plainLabel label = true → label ∉ RESERVED := by
        rintro tool' rfl hother hacc hplain
        have hne : label ≠ "" := by
          simpa using (Bool.and_eq_true_iff.mp hacc).1
        have hwhole : whole vault label ∈ touched tool vault (nothingInTheWay label) label .use := by
          cases tool with
          | claude => exact absurd rfl hother
          | codex => simp [touched, cmdUse, swap, nothingInTheWay, park, hne]
          | opencode => simp [touched, cmdUse, swap, nothingInTheWay, park, hne]
        have hchild := h (nothingInTheWay label) label hacc
          (.inr (Bool.and_eq_true_iff.mpr ⟨hacc, hplain⟩)) _ hwhole rfl
        exact (inChild_iff_of_plain hplain).mp hchild
      cases tool with
      | claude =>
          intro hacc
          have hne : label ≠ "" := by
            simpa using (Bool.and_eq_true_iff.mp hacc).1
          have hhealed : inside vault label "credentials.json" ∈
              touched .claude vault { nothingInTheWay "" with stillLoggedIn := false } label .use := by
            simp [touched, cmdUse, swap, nothingInTheWay, hne, Ne.symm hne]
          exact hself _ rfl hacc _ hhealed rfl
      | codex => exact hparks .codex rfl (by simp)
      | opencode => exact hparks .opencode rfl (by simp)
  | rm =>
      intro hacc
      cases hrefused : refused label with
      | true => exact .inl rfl
      | false =>
          have hne : label ≠ "" := by
            simpa using (Bool.and_eq_true_iff.mp hacc).1
          have hwhole : whole vault label ∈ touched tool vault (nothingInTheWay "") label .rm := by
            simp [touched, cmdRm, nothingInTheWay, hne, Ne.symm hne, hrefused]
          exact .inr (hself _ rfl hacc _ hwhole rfl)

/-- For every script, verb and label: what the verb touches for the label stays in
a child of the vault exactly when the label's path does, wherever it is used. -/
theorem stays_confined_iff (tool : Tool) (verb : Verb) (vault label : String) :
    StaysConfined tool verb vault label ↔ ConfinedLabel tool verb vault label :=
  ⟨label_of_confined, confined_of_label⟩

/-- `rm ../projects` deletes a directory beside the vault. -/
theorem rmOutside_escapes :
    ¬ StaysConfined .codex .rm "/home/ada/.codex-accounts" "../projects" := by
  intro h
  have hescaped := h (nothingInTheWay "") "../projects" (by decide) (.inl rfl)
    (whole "/home/ada/.codex-accounts" "../projects") (by decide +kernel) rfl
  obtain ⟨child, rest, heq, _⟩ := hescaped
  have hpath : resolve (labelDir "/home/ada/.codex-accounts" "../projects") =
      ["home".toList, "ada".toList, "projects".toList] := by decide +kernel
  have hvault : resolve "/home/ada/.codex-accounts" =
      ["home".toList, "ada".toList, ".codex-accounts".toList] := by decide +kernel
  rw [show (whole "/home/ada/.codex-accounts" "../projects").dir =
    labelDir "/home/ada/.codex-accounts" "../projects" from rfl, hpath, hvault] at heq
  have hcount := congrArg List.length heq
  simp at hcount

end RemoteDevbox.Account
