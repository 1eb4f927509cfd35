import RemoteDevbox.Ansible.Inventory
import RemoteDevbox.Client.Remotes
import RemoteDevbox.Lib.Lists
import Mathlib.Data.List.Chain
import Mathlib.Data.List.Sort
import Mathlib.Data.String.Basic

namespace RemoteDevbox.Client.ApplyLocks

open Js Js.Text Ansible.Inventory

/-!
# The lock files of an apply

One lock for the workspace and one for each target the program finds in the
inventory. It reads the inventory by itself; below, the host lines it reads as
Ansible does.
-/

section Source

def isTerminator (c : Char) : Bool :=
  c == '\n' || c == '\r' || c.toNat == 0x2028 || c.toNat == 0x2029

/-- `/\s+#.*$/` matches here. -/
def commentFollows (cs : List Char) : Bool :=
  match cs.dropWhile isSpace with
  | [] => false
  | c :: rest => c == '#' && rest.all fun d ↦ !isTerminator d

/-- `rawLine.replace(/\s+#.*$/, "")` -/
def dropComment : List Char → List Char
  | [] => []
  | c :: cs => if isSpace c && commentFollows (c :: cs) then [] else c :: dropComment cs

def prepared (rawLine : List Char) : List Char := trimChars (dropComment rawLine)

/-- `value.slice(1, -1)` -/
def inner (value : List Char) : List Char := value.tail.dropLast

def startsAndEnds (q : Char) (value : List Char) : Bool :=
  value.head? == some q && value.getLast? == some q

def unquote (value : List Char) : List Char :=
  if startsAndEnds '"' value || startsAndEnds '\'' value then inner value else value

/-- `line.split(/\s+/)` of a trimmed line. -/
def fields (line : List Char) : List (List Char) :=
  (line.splitOnP isSpace).filter fun w ↦ !w.isEmpty

/-- Taken for the header of a section. -/
def headed (line : List Char) : Bool := line.head? == some '[' && line.getLast? == some ']'

def skips (part : List Char) : Bool :=
  ":vars".toList.isSuffixOf part || ":children".toList.isSuffixOf part

def targetOf (line : List Char) : Option (List Char) :=
  match fields line with
  | [] => none
  | first :: rest =>
      if first.contains '=' then none
      else
        let explicit := (first :: rest).find? HOST_KEY.isPrefixOf
        let named := explicit.elim first (·.drop HOST_KEY.length)
        let target := lower (dropDot (unquote named))
        if target.isEmpty then none else some target

/-- A line of no interest: empty or a comment. -/
def isSkipped (line : List Char) : Bool :=
  line.isEmpty || line.head? == some '#' || line.head? == some ';'

/-- The targets, with the section that the line before belongs to. -/
def scan (part : List Char) : List (List Char) → List (List Char)
  | [] => []
  | rawLine :: rest =>
      let line := prepared rawLine
      if isSkipped line then scan part rest
      else if headed line then scan (lower (trimChars (inner line))) rest
      else if skips part then scan part rest
      else (targetOf line).toList ++ scan part rest

def sorted (texts : List (List Char)) : List (List Char) :=
  texts.insertionSort fun a b ↦ String.ofList a ≤ String.ofList b

/-- `none` where no target is found. -/
def inventoryTargets (text : List Char) : Option (List (List Char)) :=
  let targets := (scan [] (text.splitOn '\n')).dedup
  if targets.isEmpty then none else some (sorted targets)

/-- What the lock files depend on besides the apply. -/
structure Env where
  root : String
  resourceKey : String → String

def hostResource (target : List Char) : List Char := "host:".toList ++ target

def lockFile (env : Env) (resource : List Char) : String :=
  env.root ++ "/" ++ env.resourceKey (String.ofList resource) ++ ".lock"

def applyLockFiles (env : Env) (inventory workspaceRoot : List Char) : Option (List String) := do
  let targets ← inventoryTargets inventory
  let resources := sorted (("workspace:".toList ++ workspaceRoot) :: targets.map hostResource)
  return resources.map (lockFile env)

end Source

/-! ## Comments -/

section Comments

variable {cs rest : List Char}

/-- No number sign stands behind white space. -/
def Calm (cs : List Char) : Prop := cs.IsChain fun c d ↦ ¬(isSpace c = true ∧ d = '#')

/-- What follows the words of a line: blanks, or a comment behind blanks. -/
def Tail (cs : List Char) : Prop :=
  (∀ c ∈ cs, isBlank c = true) ∨
    ∃ blanks comment, cs = blanks ++ '#' :: comment ∧ blanks ≠ [] ∧
      (∀ c ∈ blanks, isBlank c = true) ∧ ∀ c ∈ comment, isTerminator c = false

theorem isSpace_of_isBlank {c : Char} (h : isBlank c = true) : isSpace c = true := by
  simp only [isBlank, Bool.or_eq_true, beq_iff_eq] at h
  rcases h with (rfl | rfl) | rfl <;> decide

theorem isWhite_of_isBlank {c : Char} (h : isBlank c = true) : Py.Shlex.isWhite c = true := by
  simp only [isBlank, Bool.or_eq_true, beq_iff_eq] at h
  rcases h with (rfl | rfl) | rfl <;> decide

theorem calm_of_notMem (h : '#' ∉ cs) : Calm cs := by
  induction cs with
  | nil => exact List.isChain_nil
  | cons c cs ih =>
      rw [List.mem_cons, not_or] at h
      cases cs with
      | nil => exact List.isChain_singleton c
      | cons d cs =>
          refine List.isChain_cons_cons.mpr ⟨?_, ih h.2⟩
          rintro ⟨_, rfl⟩
          exact h.2 List.mem_cons_self

theorem calm_of_solid (h : ∀ c ∈ cs, isSpace c = false) : Calm cs := by
  induction cs with
  | nil => exact List.isChain_nil
  | cons c cs ih =>
      obtain ⟨hc, hcs⟩ := List.forall_mem_cons.mp h
      cases cs with
      | nil => exact List.isChain_singleton c
      | cons d cs =>
          refine List.isChain_cons_cons.mpr ⟨?_, ih hcs⟩
          rintro ⟨hspace, _⟩
          rw [hc] at hspace
          cases hspace

theorem next_calm {c : Char} (hc : isSpace c = true) (hcalm : Calm (c :: cs))
    (hlast : ∀ d ∈ (c :: cs).getLast?, isSpace d = false) :
    ∃ d after, (cs ++ rest).dropWhile isSpace = d :: after ∧ d ≠ '#' := by
  induction cs generalizing c with
  | nil =>
      rw [hlast c rfl] at hc
      cases hc
  | cons d cs ih =>
      obtain ⟨hfirst, hcalm⟩ := List.isChain_cons_cons.mp hcalm
      cases hd : isSpace d with
      | true =>
          rw [List.cons_append, List.dropWhile_cons_of_pos hd]
          exact ih hd hcalm (by rwa [List.getLast?_cons_cons] at hlast)
      | false =>
          refine ⟨d, cs ++ rest, ?_, fun heq ↦ hfirst ⟨hc, heq⟩⟩
          rw [List.cons_append, List.dropWhile_cons_of_neg (by rw [hd]; exact Bool.false_ne_true)]

theorem dropComment_append (hcalm : Calm cs) (hlast : ∀ d ∈ cs.getLast?, isSpace d = false) :
    dropComment (cs ++ rest) = cs ++ dropComment rest := by
  induction cs with
  | nil => rfl
  | cons c cs ih =>
      have hno : ¬(isSpace c && commentFollows (c :: (cs ++ rest))) = true := by
        rw [Bool.and_eq_true]
        rintro ⟨hc, hfollows⟩
        obtain ⟨d, after, hdrop, hd⟩ := @next_calm cs rest c hc hcalm hlast
        rw [commentFollows, List.dropWhile_cons_of_pos hc, hdrop] at hfollows
        simp [hd] at hfollows
      rw [List.cons_append, dropComment, if_neg hno, List.cons_append]
      cases cs with
      | nil => rfl
      | cons d cs =>
          rw [ih (List.isChain_cons_cons.mp hcalm).2 (by rwa [List.getLast?_cons_cons] at hlast)]

theorem dropComment_tail {tail : List Char} (h : Tail tail) :
    ∀ c ∈ dropComment tail, isSpace c = true := by
  rcases h with hblank | ⟨blanks, comment, rfl, hne, hblanks, hcomment⟩
  · have hself : ∀ l : List Char, (∀ c ∈ l, isBlank c = true) → dropComment l = l := by
      intro l hl
      induction l with
      | nil => rfl
      | cons c l ih =>
          obtain ⟨hc, hrest⟩ := List.forall_mem_cons.mp hl
          have hdrop : (c :: l).dropWhile isSpace = [] :=
            List.dropWhile_eq_nil_iff.mpr fun d hd ↦ isSpace_of_isBlank (hl d hd)
          rw [dropComment, commentFollows, hdrop, Bool.and_false, if_neg Bool.false_ne_true,
            ih hrest]
    rw [hself tail hblank]
    exact fun c hc ↦ isSpace_of_isBlank (hblank c hc)
  · cases blanks with
    | nil => exact absurd rfl hne
    | cons b blanks =>
        have hspaces : ∀ c ∈ b :: blanks, isSpace c = true := fun c hc ↦
          isSpace_of_isBlank (hblanks c hc)
        have hdrop : (b :: blanks ++ '#' :: comment).dropWhile isSpace = '#' :: comment := by
          rw [List.dropWhile_append_of_pos hspaces]
          exact List.dropWhile_cons_of_neg (by decide)
        have hall : (comment.all fun d ↦ !isTerminator d) = true := by
          rw [List.all_eq_true]
          intro d hd
          rw [hcomment d hd]
          rfl
        rw [List.cons_append, dropComment, if_pos]
        · exact fun c hc ↦ absurd hc List.not_mem_nil
        · rw [Bool.and_eq_true, commentFollows, ← List.cons_append, hdrop]
          exact ⟨hspaces b List.mem_cons_self, by simpa using hall⟩

/-- What is left of a line that holds some text between blanks and a comment. -/
theorem prepared_eq {lead core tail : List Char} (hlead : ∀ c ∈ lead, isBlank c = true)
    (hcore : core ≠ []) (hhash : core.head? ≠ some '#') (hcalm : Calm core)
    (hfirst : ∀ c ∈ core.head?, isSpace c = false) (hlast : ∀ c ∈ core.getLast?, isSpace c = false)
    (htail : Tail tail) : prepared (lead ++ core ++ tail) = core := by
  have hspaces : ∀ c ∈ lead, isSpace c = true := fun c hc ↦ isSpace_of_isBlank (hlead c hc)
  have hboth : Calm (lead ++ core) := by
    refine List.isChain_append.mpr ⟨?_, hcalm, fun c _ d hd ↦ ?_⟩
    · refine calm_of_notMem fun hmem ↦ ?_
      exact absurd (hlead _ hmem) (by decide)
    · rintro ⟨_, rfl⟩
      exact hhash hd
  have hend : ∀ c ∈ (lead ++ core).getLast?, isSpace c = false := by
    intro c hc
    rw [List.getLast?_append_of_ne_nil _ hcore] at hc
    exact hlast c hc
  rw [prepared, dropComment_append hboth hend]
  exact trimChars_within hspaces (dropComment_tail htail) hfirst hlast

end Comments

/-! ## The words of a host line -/

section Words

/-- Written bare or within one pair of quotes. -/
def Spells (text value : List Char) : Prop :=
  value ≠ [] ∧ (∀ c ∈ value, isSpace c = false ∧ Py.Shlex.isQuote c = false) ∧
    (text = value ∨ ∃ q, Py.Shlex.isQuote q = true ∧ text = q :: (value ++ [q]))

/-- A further word, with the blanks before it and what Ansible reads it as. -/
structure Item where
  blanks : List Char
  text : List Char
  token : List Char
  quoted : Bool

/-- The word gives the address. -/
def Item.isHost (i : Item) : Bool := HOST_KEY.isPrefixOf i.token

structure Item.Plain (i : Item) : Prop where
  apart : i.blanks ≠ []
  blank : ∀ c ∈ i.blanks, isBlank c = true
  reads : Py.Shlex.spelled .blank [] false i.text = some (i.token, i.quoted)
  calm : Calm i.text
  ends : ∀ c ∈ i.text.getLast?, isSpace c = false
  address : i.isHost = true → ∃ text value, i.text = HOST_KEY ++ text ∧
    i.token = HOST_KEY ++ value ∧ Spells text value ∧ norm value ≠ []
  other : i.isHost = false → ∀ w ∈ fields i.text, HOST_KEY.isPrefixOf w = false

/-- How a host line is written. -/
structure Spelling where
  lead : List Char
  text : List Char
  name : List Char
  quoted : Bool
  items : List Item
  tail : List Char

def itemsText (items : List Item) : List Char := items.flatMap fun i ↦ i.blanks ++ i.text

def Spelling.core (s : Spelling) : List Char := s.text ++ itemsText s.items

def Spelling.line (s : Spelling) : List Char := s.lead ++ s.core ++ s.tail

structure Spelling.Plain (s : Spelling) : Prop where
  lead_blank : ∀ c ∈ s.lead, isBlank c = true
  spells : Spells s.text s.name
  reads : Py.Shlex.spelled .blank [] false s.text = some (s.name, s.quoted)
  no_equals : '=' ∉ s.name
  items_plain : ∀ i ∈ s.items, i.Plain
  one_address : (s.items.filter Item.isHost).length ≤ 1
  own_name : s.items.filter Item.isHost = [] →
    '[' ∉ s.name ∧ dropPort s.name = s.name ∧ norm s.name ≠ []
  tail : Tail s.tail

variable {a b text value blanks : List Char}

theorem isSpace_quote {q : Char} (h : Py.Shlex.isQuote q = true) : isSpace q = false := by
  simp only [Py.Shlex.isQuote, Bool.or_eq_true, beq_iff_eq] at h
  rcases h with rfl | rfl <;> decide

theorem Spells.solid (h : Spells text value) : ∀ c ∈ text, isSpace c = false := by
  obtain ⟨_, hvalue, rfl | ⟨q, hq, rfl⟩⟩ := h
  · exact fun c hc ↦ (hvalue c hc).1
  · intro c hc
    rcases List.mem_cons.mp hc with rfl | hc
    · exact isSpace_quote hq
    · rcases List.mem_append.mp hc with hc | hc
      · exact (hvalue c hc).1
      · rw [List.mem_singleton.mp hc]
        exact isSpace_quote hq

theorem Spells.ne_nil (h : Spells text value) : text ≠ [] := by
  obtain ⟨hne, _, rfl | ⟨q, _, rfl⟩⟩ := h
  · exact hne
  · exact List.cons_ne_nil _ _

/-- The program takes the same quotes off. -/
theorem Spells.unquote (h : Spells text value) : unquote text = value := by
  obtain ⟨hne, hvalue, rfl | ⟨q, hq, rfl⟩⟩ := h
  · have hno : ∀ q, Py.Shlex.isQuote q = true → startsAndEnds q text = false := by
      intro q hq
      cases text with
      | nil => rfl
      | cons c rest =>
          have hc : c ≠ q := by
            rintro rfl
            rw [(hvalue c List.mem_cons_self).2] at hq
            cases hq
          simp [startsAndEnds, hc]
    rw [ApplyLocks.unquote, hno '"' (by decide), hno '\'' (by decide)]
    rfl
  · have hlast : (q :: (value ++ [q])).getLast? = some q := by
      rw [← List.cons_append, List.getLast?_concat]
    have hends : startsAndEnds q (q :: (value ++ [q])) = true := by
      simp [startsAndEnds, hlast]
    have hinner : inner (q :: (value ++ [q])) = value := by
      rw [inner, List.tail_cons, List.dropLast_concat]
    simp only [Py.Shlex.isQuote, Bool.or_eq_true, beq_iff_eq] at hq
    rw [ApplyLocks.unquote, if_pos, hinner]
    rcases hq with rfl | rfl
    · rw [hends, Bool.or_true]
    · rw [hends, Bool.true_or]

theorem fields_cons_space {c : Char} (h : isSpace c = true) (a b : List Char) :
    fields (a ++ c :: b) = fields a ++ fields b := by
  rw [fields, List.splitOnP_append_cons a b h, List.filter_append, fields, fields]

theorem fields_apart (hne : blanks ≠ []) (h : ∀ c ∈ blanks, isSpace c = true) (a b : List Char) :
    fields (a ++ (blanks ++ b)) = fields a ++ fields b := by
  induction blanks generalizing a with
  | nil => exact absurd rfl hne
  | cons c blanks ih =>
      obtain ⟨hc, hblanks⟩ := List.forall_mem_cons.mp h
      rw [List.cons_append, fields_cons_space hc]
      cases blanks with
      | nil => rfl
      | cons d blanks =>
          have hrest := ih (List.cons_ne_nil _ _) hblanks []
          rw [List.nil_append] at hrest
          rw [hrest]
          rfl

theorem fields_word (hne : a ≠ []) (h : ∀ c ∈ a, isSpace c = false) : fields a = [a] := by
  rw [fields, List.splitOnP_eq_singleton h]
  simp [hne]

theorem fields_items {items : List Item} (h : ∀ i ∈ items, i.Plain) (a : List Char) :
    fields (a ++ itemsText items) = fields a ++ items.flatMap fun i ↦ fields i.text := by
  induction items generalizing a with
  | nil => simp [itemsText, fields]
  | cons i items ih =>
      obtain ⟨hi, hitems⟩ := List.forall_mem_cons.mp h
      have hspaces : ∀ c ∈ i.blanks, isSpace c = true := fun c hc ↦ isSpace_of_isBlank (hi.blank c hc)
      have hsplit : itemsText (i :: items) = i.blanks ++ (i.text ++ itemsText items) := by
        rw [itemsText, List.flatMap_cons, List.append_assoc]
        rfl
      rw [hsplit, fields_apart hi.apart hspaces, ih hitems, List.flatMap_cons]

theorem calm_append (ha : Calm a) (hb : Calm b) (hhash : b.head? ≠ some '#') : Calm (a ++ b) := by
  refine List.isChain_append.mpr ⟨ha, hb, fun c _ d hd ↦ ?_⟩
  rintro ⟨_, rfl⟩
  exact hhash hd

theorem calm_items {items : List Item} (h : ∀ i ∈ items, i.Plain) (ha : Calm a)
    (hne : a ≠ []) (hend : ∀ c ∈ a.getLast?, isSpace c = false) :
    Calm (a ++ itemsText items) ∧ ∀ c ∈ (a ++ itemsText items).getLast?, isSpace c = false := by
  induction items generalizing a with
  | nil =>
      rw [itemsText, List.flatMap_nil, List.append_nil]
      exact ⟨ha, hend⟩
  | cons i items ih =>
      obtain ⟨hi, hitems⟩ := List.forall_mem_cons.mp h
      obtain ⟨c, rest, htext, _, hc⟩ := Py.Shlex.spelled_head hi.reads
      have htextne : i.text ≠ [] := by
        rw [htext]
        exact List.cons_ne_nil _ _
      obtain ⟨hcalm, hlast⟩ := ih hitems hi.calm htextne hi.ends
      have hblanks : '#' ∉ i.blanks := fun hmem ↦ absurd (hi.blank _ hmem) (by decide)
      have hsplit : itemsText (i :: items) = i.blanks ++ (i.text ++ itemsText items) := by
        rw [itemsText, List.flatMap_cons, List.append_assoc]
        rfl
      rw [hsplit]
      refine ⟨calm_append ha (calm_append (calm_of_notMem hblanks) hcalm ?_) ?_, ?_⟩
      · rw [htext, List.cons_append, List.head?_cons]
        exact fun heq ↦ hc (Option.some.inj heq)
      · cases hb : i.blanks with
        | nil => exact absurd hb hi.apart
        | cons b blanks =>
            rw [List.cons_append, List.head?_cons]
            intro heq
            rw [hb, Option.some.inj heq] at hblanks
            exact hblanks List.mem_cons_self
      · have hlonger : i.blanks ++ (i.text ++ itemsText items) ≠ [] := by
          simp [htextne]
        rw [List.getLast?_append_of_ne_nil _ hlonger,
          List.getLast?_append_of_ne_nil _ (by simp [htextne])]
        exact hlast

/-- Ansible reads the words of the line one by one. -/
theorem tokens_items {items : List Item} (h : ∀ i ∈ items, i.Plain) {word : List Char} {quoted : Bool}
    (hword : word ≠ [] ∨ quoted = true) {tail : List Char} (htail : Tail tail) :
    Py.Shlex.tokens .word word quoted (Py.Shlex.uncommented .word (itemsText items ++ tail)) =
      some (word :: items.map Item.token) := by
  induction items generalizing word quoted with
  | nil =>
      have hend : ∀ blanks : List Char, (∀ c ∈ blanks, Py.Shlex.isWhite c = true) →
          Py.Shlex.tokens .word word quoted blanks = some [word] := by
        intro blanks hblanks
        by_cases hne : blanks = []
        · subst hne
          rcases hword with hword | rfl <;> simp [Py.Shlex.tokens, *]
        · have htokens := Py.Shlex.tokens_word_blanks hword hblanks hne []
          rwa [List.append_nil] at htokens
      have hwhite : ∀ {l : List Char}, (∀ c ∈ l, isBlank c = true) →
          ∀ c ∈ l, Py.Shlex.isWhite c = true := fun hl c hc ↦ isWhite_of_isBlank (hl c hc)
      rw [itemsText, List.flatMap_nil, List.nil_append, List.map_nil]
      rcases htail with hblank | ⟨blanks, comment, rfl, hne, hblanks, _⟩
      · by_cases hne : tail = []
        · subst hne
          exact hend [] fun c hc ↦ absurd hc List.not_mem_nil
        · have huncommented := Py.Shlex.uncommented_white (.inr rfl) (hwhite hblank) hne []
          rw [List.append_nil] at huncommented
          rw [huncommented]
          exact hend _ (by simpa [Py.Shlex.uncommented] using hwhite hblank)
      · rw [Py.Shlex.uncommented_white (.inr rfl) (hwhite hblanks) hne]
        exact hend _ (by simpa [Py.Shlex.uncommented, Py.Shlex.Mode.isOpen] using hwhite hblanks)
  | cons i items ih =>
      obtain ⟨hi, hitems⟩ := List.forall_mem_cons.mp h
      have hwhite : ∀ c ∈ i.blanks, Py.Shlex.isWhite c = true := fun c hc ↦
        isWhite_of_isBlank (hi.blank c hc)
      have hkept : i.token ≠ [] ∨ i.quoted = true :=
        Py.Shlex.spelled_kept (fun hmode ↦ by cases hmode) hi.reads
      have hsplit : itemsText (i :: items) ++ tail =
          i.blanks ++ (i.text ++ (itemsText items ++ tail)) := by
        simp [itemsText]
      rw [hsplit, Py.Shlex.uncommented_white (.inr rfl) hwhite hi.apart,
        Py.Shlex.uncommented_spelled hi.reads, Py.Shlex.tokens_word_blanks hword hwhite hi.apart,
        Py.Shlex.tokens_spelled hi.reads, ih hitems hkept]
      rfl

theorem Spelling.tokens {s : Spelling} (h : s.Plain) :
    Py.Shlex.splitLine s.line = some (s.name :: s.items.map Item.token) := by
  have hwhite : ∀ c ∈ s.lead, Py.Shlex.isWhite c = true := fun c hc ↦
    isWhite_of_isBlank (h.lead_blank c hc)
  have hkept : s.name ≠ [] ∨ s.quoted = true := .inl h.spells.1
  have hsplit : s.line = s.lead ++ (s.text ++ (itemsText s.items ++ s.tail)) := by
    simp [Spelling.line, Spelling.core]
  have hstart : Py.Shlex.uncommented .blank s.line = s.lead ++
      Py.Shlex.uncommented .blank (s.text ++ (itemsText s.items ++ s.tail)) := by
    rw [hsplit]
    by_cases hne : s.lead = []
    · rw [hne, List.nil_append, List.nil_append]
    · exact Py.Shlex.uncommented_white (.inl rfl) hwhite hne _
  rw [Py.Shlex.splitLine, Py.Shlex.split, hstart, Py.Shlex.tokens_blanks hwhite,
    Py.Shlex.uncommented_spelled h.reads, Py.Shlex.tokens_spelled h.reads]
  exact tokens_items h.items_plain hkept h.tail

theorem Spelling.prepared {s : Spelling} (h : s.Plain) : prepared s.line = s.core := by
  obtain ⟨c, rest, htext, _, hc⟩ := Py.Shlex.spelled_head h.reads
  have hhead : s.core.head? = some c := by
    rw [Spelling.core, htext]
    rfl
  have hend : ∀ d ∈ s.text.getLast?, isSpace d = false := fun d hd ↦
    h.spells.solid d (List.mem_of_mem_getLast? hd)
  have hcalm : Calm s.text := calm_of_solid h.spells.solid
  obtain ⟨hcalm, hlast⟩ := calm_items h.items_plain hcalm h.spells.ne_nil hend
  refine prepared_eq h.lead_blank ?_ ?_ hcalm ?_ hlast h.tail
  · rw [Spelling.core]
    simp [h.spells.ne_nil]
  · rw [hhead]
    exact fun heq ↦ hc (Option.some.inj heq)
  · rw [hhead]
    rintro d ⟨⟩
    exact h.spells.solid c (by rw [htext]; exact List.mem_cons_self)

theorem notPrefix_of_notMem {w : List Char} (h : '=' ∉ w) : HOST_KEY.isPrefixOf w = false := by
  rw [Bool.eq_false_iff]
  intro hprefix
  have hmem : '=' ∈ HOST_KEY := by decide
  exact h ((List.isPrefixOf_iff_prefix.mp hprefix).subset hmem)

theorem Spells.notMem {c : Char} (h : Spells text value) (hc : c ∉ value)
    (hquote : Py.Shlex.isQuote c = false) : c ∉ text := by
  obtain ⟨_, _, rfl | ⟨q, hq, rfl⟩⟩ := h
  · exact hc
  · have hne : c ≠ q := by
      rintro rfl
      rw [hq] at hquote
      cases hquote
    simp [hne, hc]

theorem host_key_solid : ∀ c ∈ HOST_KEY, isSpace c = false := by
  have hall : HOST_KEY.all (fun c ↦ !isSpace c) = true := by decide
  intro c hc
  simpa using List.all_eq_true.mp hall c hc

/-- The program's target of a line is its address. -/
theorem Spelling.target {s : Spelling} (h : s.Plain) {patterns : Patterns}
    {addresses : List (List Char)} (haddresses : addressesOf patterns s.line = some addresses)
    {a : List Char} (ha : a ∈ addresses) : targetOf s.core = some a := by
  have hequals : '=' ∉ s.text := h.spells.notMem h.no_equals (by decide)
  have hfields : fields s.core = s.text :: s.items.flatMap fun i ↦ fields i.text := by
    rw [Spelling.core, fields_items h.items_plain,
      fields_word h.spells.ne_nil h.spells.solid, List.singleton_append]
  have hcontains : ¬s.text.contains '=' = true := by simpa using hequals
  have hgiven : givenHost (s.items.map Item.token) =
      (((s.items.filter Item.isHost).map Item.token).map (·.drop HOST_KEY.length)).getLast? := by
    rw [givenHost, List.filter_map]
    rfl
  have hresult : ∀ named address, (s.text :: s.items.flatMap fun i ↦ fields i.text).find?
        HOST_KEY.isPrefixOf = named → unquote (named.elim s.text (·.drop HOST_KEY.length)) = address →
      norm address ≠ [] → targetOf s.core = some (norm address) := by
    rintro named address hfind haddress hne
    have hnonempty : ¬(norm address).isEmpty = true := by simpa using hne
    rw [targetOf, hfields]
    simp only [if_neg hcontains, hfind, haddress]
    exact if_neg hnonempty
  rw [addressesOf, Spelling.tokens h] at haddresses
  simp only [bind, Option.bind] at haddresses
  split at haddresses
  · rw [hgiven] at haddresses
    have hsome := h.one_address
    cases hfilter : s.items.filter Item.isHost with
    | nil =>
        obtain ⟨hbracket, hport, hne⟩ := h.own_name hfilter
        rw [hfilter] at haddresses
        obtain rfl := Option.some.inj haddresses
        rw [hport, patterns.plain _ hbracket, List.map_singleton, List.mem_singleton] at ha
        subst ha
        refine hresult none s.name ?_ h.spells.unquote hne
        rw [List.find?_eq_none]
        intro w hw
        rcases List.mem_cons.mp hw with rfl | hw
        · rw [notPrefix_of_notMem hequals]
          exact Bool.false_ne_true
        · obtain ⟨i, hi, hw⟩ := List.mem_flatMap.mp hw
          have hno : i.isHost = false := by
            by_contra hyes
            have hmem : i ∈ s.items.filter Item.isHost :=
              List.mem_filter.mpr ⟨hi, (Bool.not_eq_false _).mp hyes⟩
            rw [hfilter] at hmem
            exact List.not_mem_nil hmem
          rw [(h.items_plain i hi).other hno w hw]
          exact Bool.false_ne_true
    | cons i more =>
        obtain ⟨before, behind, hitems, hbefore, hhost, hmore⟩ := List.filter_eq_cons_iff.mp hfilter
        have hnil : more = [] := by
          rw [hfilter] at hsome
          simpa using hsome
        subst hnil
        have hi : i ∈ s.items := by
          rw [hitems]
          simp
        obtain ⟨text, value, htext, htoken, hspells, hne⟩ := (h.items_plain i hi).address hhost
        have hdrop : i.token.drop HOST_KEY.length = value := by
          rw [htoken, List.drop_left]
        rw [hfilter, List.map_singleton, List.map_singleton, hdrop] at haddresses
        obtain rfl := Option.some.inj haddresses
        rw [List.mem_singleton] at ha
        subst ha
        have hword : fields i.text = [i.text] := by
          refine fields_word (by rw [htext]; exact List.cons_ne_nil _ _) fun c hc ↦ ?_
          rw [htext] at hc
          rcases List.mem_append.mp hc with hc | hc
          · exact host_key_solid c hc
          · exact hspells.solid c hc
        refine hresult (some i.text) value ?_ ?_ hne
        · rw [List.find?_eq_some_iff_append]
          refine ⟨by rw [htext, List.isPrefixOf_iff_prefix]; exact List.prefix_append _ _,
            s.text :: before.flatMap fun j ↦ fields j.text, behind.flatMap fun j ↦ fields j.text, ?_, ?_⟩
          · rw [hitems, List.flatMap_append, List.flatMap_cons, hword]
            simp
          · intro w hw
            rw [Bool.not_eq_true']
            rcases List.mem_cons.mp hw with rfl | hw
            · exact notPrefix_of_notMem hequals
            · obtain ⟨j, hj, hw⟩ := List.mem_flatMap.mp hw
              have hmem : j ∈ s.items := by
                rw [hitems]
                exact List.mem_append_left _ hj
              exact (h.items_plain j hmem).other ((Bool.not_eq_true _).mp (hbefore j hj)) w hw
        · rw [Option.elim_some, htext, List.drop_left]
          exact hspells.unquote
  · cases haddresses

end Words

/-! ## Headers -/

section Headers

/-- A header as both read it: nothing but a comment behind blanks follows it. -/
def PlainHeader (rawLine : List Char) : Prop :=
  ∃ lead part tail, rawLine = lead ++ ('[' :: (part ++ [']'])) ++ tail ∧
    (∀ c ∈ lead, isBlank c = true) ∧ (∀ c ∈ part, isSpace c = false) ∧ ']' ∉ part ∧ Tail tail

variable {lead part tail : List Char}

theorem prepared_header (hlead : ∀ c ∈ lead, isBlank c = true) (hpart : ∀ c ∈ part, isSpace c = false)
    (htail : Tail tail) :
    prepared (lead ++ ('[' :: (part ++ [']'])) ++ tail) = '[' :: (part ++ [']']) := by
  have hsolid : ∀ c ∈ '[' :: (part ++ [']']), isSpace c = false := by
    intro c hc
    rcases List.mem_cons.mp hc with rfl | hc
    · decide
    · rcases List.mem_append.mp hc with hc | hc
      · exact hpart c hc
      · rw [List.mem_singleton.mp hc]
        decide
  exact prepared_eq hlead (List.cons_ne_nil _ _) (by simp) (calm_of_solid hsolid)
    (fun c hc ↦ hsolid c (List.mem_of_mem_head? hc))
    (fun c hc ↦ hsolid c (List.mem_of_mem_getLast? hc)) htail

theorem headed_header : headed ('[' :: (part ++ [']'])) = true := by
  have hlast : ('[' :: (part ++ [']'])).getLast? = some ']' := by
    rw [← List.cons_append, List.getLast?_concat]
  simp [headed, hlast]

theorem inner_header : inner ('[' :: (part ++ [']'])) = part := by
  rw [inner, List.tail_cons, List.dropLast_concat]

theorem trim_part (hpart : ∀ c ∈ part, isSpace c = false) : trimChars part = part := by
  have htrim := @trimChars_within [] part [] (fun c hc ↦ absurd hc List.not_mem_nil)
    (fun c hc ↦ absurd hc List.not_mem_nil) (fun c hc ↦ hpart c (List.mem_of_mem_head? hc))
    (fun c hc ↦ hpart c (List.mem_of_mem_getLast? hc))
  rwa [List.nil_append, List.append_nil] at htrim

theorem dropWhile_lead {c : Char} {rest : List Char} (hlead : ∀ d ∈ lead, isBlank d = true)
    (hc : isBlank c = false) : (lead ++ c :: rest).dropWhile isBlank = c :: rest := by
  rw [List.dropWhile_append_of_pos hlead]
  exact List.dropWhile_cons_of_neg (by rw [hc]; exact Bool.false_ne_true)

/-- The name and the modifier of a header. -/
theorem readHeader_parts (hpart : ∀ c ∈ part, isSpace c = false) (hclose : ']' ∉ part)
    {modifier : List Char} (h : readHeader ('[' :: (part ++ ']' :: tail)) = some modifier) :
    (':' ∉ part ∧ modifier = []) ∨
      ∃ name, part = name ++ ':' :: modifier ∧ ':' ∉ modifier := by
  have hname : ∀ c ∈ part, c ≠ ':' → isNameChar c = true := by
    intro c hc hcolon
    have hbracket : c ≠ ']' := by
      rintro rfl
      exact hclose hc
    have hblank : isBlank c = false := by
      rw [Bool.eq_false_iff]
      intro hblank
      have hspace := isSpace_of_isBlank hblank
      rw [hpart c hc] at hspace
      cases hspace
    simp [isNameChar, hcolon, hbracket, hblank]
  have htake : ∀ {a rest : List Char} {d : Char}, (∀ c ∈ a, isNameChar c = true) →
      isNameChar d = false → (a ++ d :: rest).takeWhile isNameChar = a ∧
        (a ++ d :: rest).dropWhile isNameChar = d :: rest := by
    intro a rest d ha hd
    have hneg : ¬isNameChar d = true := by rw [hd]; exact Bool.false_ne_true
    rw [List.takeWhile_append_of_pos ha, List.dropWhile_append_of_pos ha,
      List.takeWhile_cons_of_neg hneg, List.dropWhile_cons_of_neg hneg, List.append_nil]
    exact ⟨rfl, rfl⟩
  have hsplit : ∀ l : List Char, ':' ∉ l ∨ ∃ a b, l = a ++ ':' :: b ∧ ':' ∉ a := by
    intro l
    by_cases hmem : ':' ∈ l
    · obtain ⟨a, b, hab, ha⟩ := List.eq_append_cons_of_mem hmem
      exact .inr ⟨a, b, hab, ha⟩
    · exact .inl hmem
  rcases hsplit part with hno | ⟨name, rest, rfl, hnocolon⟩
  · have hall : ∀ c ∈ part, isNameChar c = true := fun c hc ↦ hname c hc fun heq ↦ hno (heq ▸ hc)
    obtain ⟨ht, hd⟩ := @htake part tail ']' hall (by decide)
    rw [readHeader, ht, hd] at h
    split_ifs at h
    simp only at h
    split_ifs at h
    exact .inl ⟨hno, (Option.some.inj h).symm⟩
  · have hall : ∀ c ∈ name, isNameChar c = true := fun c hc ↦
      hname c (List.mem_append_left _ hc) fun heq ↦ hnocolon (heq ▸ hc)
    obtain ⟨ht, hd⟩ := @htake name (rest ++ ']' :: tail) ':' hall (by decide)
    rw [List.append_assoc, List.cons_append, readHeader, ht, hd] at h
    split_ifs at h
    simp only at h
    rcases hsplit rest with hno | ⟨more, others, rfl, hmore⟩
    · have hrest : ∀ c ∈ rest, isNameChar c = true := fun c hc ↦
        hname c (by simp [hc]) fun heq ↦ hno (heq ▸ hc)
      obtain ⟨ht, hd⟩ := @htake rest tail ']' hrest (by decide)
      rw [ht, hd] at h
      simp only at h
      split_ifs at h
      obtain rfl := Option.some.inj h
      exact .inr ⟨name, rfl, hno⟩
    · have hrest : ∀ c ∈ more, isNameChar c = true := fun c hc ↦
        hname c (by simp [hc]) fun heq ↦ hmore (heq ▸ hc)
      obtain ⟨ht, hd⟩ := @htake more (others ++ ']' :: tail) ':' hrest (by decide)
      rw [List.append_assoc, List.cons_append, hd] at h
      cases h

theorem colon_lower (h : ':' ∉ part) : ':' ∉ lower part := by
  intro hmem
  obtain ⟨c, hc, hcolon⟩ := List.mem_map.mp hmem
  cases halpha : c.isAlpha with
  | true =>
      have hlower := (letter_facts halpha).2.1
      rw [hcolon] at hlower
      exact absurd hlower (by decide)
  | false =>
      rw [toLower_of_not_isAlpha halpha] at hcolon
      exact h (hcolon ▸ hc)

theorem suffix_modifier {name modifier word : List Char} (hmodifier : ':' ∉ modifier)
    (hword : ':' ∉ word) :
    (':' :: word).isSuffixOf (name ++ ':' :: modifier) = true ↔ modifier = word := by
  rw [List.isSuffixOf_iff_suffix]
  constructor
  · rintro ⟨before, heq⟩
    exact ((append_sep_inj_last hword hmodifier).mp heq).2.symm
  · rintro rfl
    exact List.suffix_append _ _

theorem not_skips (h : ':' ∉ part) : skips part = false := by
  have hno : ∀ word : List Char, (':' :: word).isSuffixOf part = false := by
    intro word
    rw [Bool.eq_false_iff]
    exact fun hsuffix ↦
      h ((List.isSuffixOf_iff_suffix.mp hsuffix).subset List.mem_cons_self)
  rw [skips, Bool.or_eq_false_iff]
  exact ⟨hno "vars".toList, hno "children".toList⟩

/-- The program and Ansible agree on what a section is about. -/
theorem skips_iff {modifier : List Char} {kind : Kind}
    (hparts : (':' ∉ part ∧ modifier = []) ∨ ∃ name, part = name ++ ':' :: modifier ∧ ':' ∉ modifier)
    (hkind : kindOf modifier = some kind) : skips (lower part) = true ↔ kind ≠ .hosts := by
  rcases hparts with ⟨hno, rfl⟩ | ⟨name, rfl, _⟩
  · obtain rfl : Kind.hosts = kind := Option.some.inj hkind
    simp [not_skips (colon_lower hno)]
  · have hlower : lower (name ++ ':' :: modifier) = lower name ++ ':' :: lower modifier := by
      simp [Ansible.Inventory.lower]
    have hskips : ∀ m : List Char, ':' ∉ m → (skips (lower name ++ ':' :: m) = true ↔
        m = "vars".toList ∨ m = "children".toList) := by
      intro m hm
      rw [skips, Bool.or_eq_true]
      exact or_congr (suffix_modifier hm (by decide)) (suffix_modifier hm (by decide))
    rw [hlower]
    unfold kindOf at hkind
    split_ifs at hkind with hhosts hvars hchildren
    · obtain rfl := Option.some.inj hkind
      rcases hhosts with rfl | rfl
      · rw [show lower [] = [] from rfl, hskips [] List.not_mem_nil]
        decide
      · rw [show lower "hosts".toList = "hosts".toList by decide, hskips _ (by decide)]
        decide
    · obtain rfl := Option.some.inj hkind
      rw [hvars, show lower "vars".toList = "vars".toList by decide, hskips _ (by decide)]
      decide
    · obtain rfl := Option.some.inj hkind
      rw [hchildren, show lower "children".toList = "children".toList by decide, hskips _ (by decide)]
      decide

end Headers

/-! ## Lines of no interest -/

section Skipped

variable {lead : List Char}

theorem dropWhile_concat {p : Char → Bool} {c : Char} (hc : p c = false) (l : List Char) :
    (l ++ [c]).dropWhile p = l.dropWhile p ++ [c] := by
  induction l with
  | nil => exact List.dropWhile_cons_of_neg (by rw [hc]; exact Bool.false_ne_true)
  | cons d l ih =>
      cases hd : p d with
      | true => rw [List.cons_append, List.dropWhile_cons_of_pos hd, List.dropWhile_cons_of_pos hd, ih]
      | false =>
          have hneg : ¬p d = true := by rw [hd]; exact Bool.false_ne_true
          rw [List.cons_append, List.dropWhile_cons_of_neg hneg, List.dropWhile_cons_of_neg hneg,
            List.cons_append]

theorem head_trim {c : Char} {rest : List Char} (hlead : ∀ d ∈ lead, isSpace d = true)
    (hc : isSpace c = false) : (trimChars (lead ++ c :: rest)).head? = some c := by
  have hneg : ¬isSpace c = true := by rw [hc]; exact Bool.false_ne_true
  rw [trimChars, List.dropWhile_append_of_pos hlead, List.dropWhile_cons_of_neg hneg,
    List.reverse_cons, dropWhile_concat hc, List.reverse_append]
  rfl

theorem dropComment_hash (hlead : ∀ d ∈ lead, isBlank d = true) (rest : List Char) :
    dropComment (lead ++ '#' :: rest) = [] ∨
      ∃ more, dropComment (lead ++ '#' :: rest) = lead ++ '#' :: more := by
  have hfollows : ∀ l : List Char, (∀ d ∈ l, isBlank d = true) →
      commentFollows (l ++ '#' :: rest) = rest.all fun d ↦ !isTerminator d := by
    intro l hl
    have hdrop : (l ++ '#' :: rest).dropWhile isSpace = '#' :: rest := by
      rw [List.dropWhile_append_of_pos fun d hd ↦ isSpace_of_isBlank (hl d hd)]
      exact List.dropWhile_cons_of_neg (by decide)
    rw [commentFollows, hdrop]
    rfl
  cases hall : rest.all fun d ↦ !isTerminator d with
  | true =>
      cases lead with
      | nil => exact .inr ⟨dropComment rest, rfl⟩
      | cons b lead =>
          refine .inl ?_
          rw [List.cons_append, dropComment, if_pos]
          rw [Bool.and_eq_true, ← List.cons_append, hfollows _ hlead, hall]
          exact ⟨isSpace_of_isBlank (hlead b List.mem_cons_self), rfl⟩
  | false =>
      refine .inr ⟨dropComment rest, ?_⟩
      induction lead with
      | nil => rfl
      | cons b lead ih =>
          have hno : ¬(isSpace b && commentFollows (b :: (lead ++ '#' :: rest))) = true := by
            rw [← List.cons_append, hfollows _ hlead, hall, Bool.and_false]
            exact Bool.false_ne_true
          rw [List.cons_append, dropComment, if_neg hno, ih (List.forall_mem_cons.mp hlead).2]
          rfl

theorem skipped_of_nothing {rawLine : List Char} (h : classify rawLine = .nothing) :
    isSkipped (prepared rawLine) = true := by
  have hsplit := List.takeWhile_append_dropWhile (p := isBlank) (l := rawLine)
  have hlead : ∀ d ∈ rawLine.takeWhile isBlank, isBlank d = true := fun d hd ↦
    List.mem_takeWhile_imp hd
  have hspaces : ∀ d ∈ rawLine.takeWhile isBlank, isSpace d = true := fun d hd ↦
    isSpace_of_isBlank (hlead d hd)
  unfold classify at h
  split at h
  · rename_i hnil
    rw [hnil, List.append_nil] at hsplit
    rw [hsplit] at hlead
    have hempty : prepared rawLine = [] :=
      trimChars_eq_nil_iff.mpr (dropComment_tail (.inl hlead))
    rw [hempty]
    rfl
  · rename_i c rest hcons
    rw [hcons] at hsplit
    by_cases hmark : c = '#' ∨ c = ';'
    · rcases hmark with rfl | rfl
      · rcases dropComment_hash hlead rest with hnone | ⟨more, hmore⟩
        · rw [hsplit] at hnone
          rw [prepared, hnone]
          rfl
        · rw [hsplit] at hmore
          have hhead := @head_trim _ '#' more hspaces (by decide)
          rw [isSkipped, prepared, hmore, hhead]
          simp
      · have hcalm : Calm (rawLine.takeWhile isBlank ++ [';']) := by
          refine calm_of_notMem fun hmem ↦ ?_
          rcases List.mem_append.mp hmem with hmem | hmem
          · exact absurd (hlead _ hmem) (by decide)
          · exact absurd hmem (by decide)
        have hdrop := @dropComment_append _ rest hcalm (by
          rw [List.getLast?_concat]
          rintro d ⟨⟩
          decide)
        rw [List.append_assoc, List.singleton_append, hsplit, List.append_assoc,
          List.singleton_append] at hdrop
        have hhead := @head_trim _ ';' (dropComment rest) hspaces (by decide)
        rw [isSkipped, prepared, hdrop, hhead]
        simp
    · rw [if_neg hmark] at h
      split at h
      · split at h <;> cases h
      · split at h <;> cases h

end Skipped

/-! ## The whole inventory -/

/-- The lines of an inventory that the program reads as Ansible does. -/
def PlainLines (kind : Kind) : List (List Char) → Prop
  | [] => True
  | rawLine :: rest =>
      match classify rawLine with
      | .nothing => PlainLines kind rest
      | .bad => True
      | .header kind' => PlainHeader rawLine ∧ PlainLines kind' rest
      | .entry => headed (prepared rawLine) = false ∧
          (kind = .hosts → ∃ s : Spelling, s.Plain ∧ s.line = rawLine) ∧ PlainLines kind rest

def PlainInventory (text : List Char) : Prop := PlainLines .hosts (text.splitOn '\n')

section Coverage

theorem header_parts {rawLine : List Char} {kind : Kind} (h : classify rawLine = .header kind)
    (hplain : PlainHeader rawLine) : ∃ part, prepared rawLine = '[' :: (part ++ [']']) ∧
      trimChars part = part ∧ (skips (lower part) = true ↔ kind ≠ .hosts) := by
  obtain ⟨lead, part, tail, rfl, hlead, hpart, hclose, htail⟩ := hplain
  refine ⟨part, prepared_header hlead hpart htail, trim_part hpart, ?_⟩
  have hline : (lead ++ ('[' :: (part ++ [']'])) ++ tail).dropWhile isBlank =
      '[' :: (part ++ ']' :: tail) := by
    have hassoc : lead ++ ('[' :: (part ++ [']'])) ++ tail =
        lead ++ '[' :: (part ++ ']' :: tail) := by simp
    rw [hassoc, dropWhile_lead hlead (by decide)]
  unfold classify at h
  rw [hline] at h
  simp only at h
  rw [if_neg (by decide)] at h
  split at h
  · rename_i modifier hread
    split at h
    · rename_i kind' hkind
      obtain rfl := Line.header.inj h
      exact skips_iff (readHeader_parts hpart hclose hread) hkind
    · cases h
  · split at h <;> cases h

theorem headed_iff {part : List Char} : isSkipped ('[' :: part) = false := by
  simp [isSkipped]

theorem Spelling.not_skipped {s : Spelling} (h : s.Plain) (hclass : classify s.line = .entry) :
    isSkipped s.core = false := by
  obtain ⟨c, rest, htext, hwhite, hhash⟩ := Py.Shlex.spelled_head h.reads
  have hcore : s.core = c :: (rest ++ itemsText s.items) := by
    rw [Spelling.core, htext, List.cons_append]
  have hblank : isBlank c = false := by
    rw [Bool.eq_false_iff]
    intro hblank
    rw [isWhite_of_isBlank hblank] at hwhite
    cases hwhite
  have hline : s.line.dropWhile isBlank = c :: (rest ++ itemsText s.items ++ s.tail) := by
    rw [Spelling.line, hcore, List.append_assoc, List.cons_append]
    exact dropWhile_lead h.lead_blank hblank
  have hsemicolon : c ≠ ';' := by
    rintro rfl
    unfold classify at hclass
    rw [hline] at hclass
    cases hclass
  rw [isSkipped, hcore]
  simp [hhash, hsemicolon]

/-- Each address that Ansible reads is a target. -/
theorem scan_covers {patterns : Patterns} {kind : Kind} {part : List Char}
    {lines hosts : List (List Char)} (hhosts : hostLines kind lines = some hosts)
    (hplain : PlainLines kind lines) (hpart : skips part = true ↔ kind ≠ .hosts) :
    ∀ line ∈ hosts, ∀ addresses, addressesOf patterns line = some addresses →
      ∀ a ∈ addresses, a ∈ scan part lines := by
  induction lines generalizing kind part hosts with
  | nil =>
      obtain rfl := Option.some.inj hhosts
      exact fun line hline ↦ absurd hline List.not_mem_nil
  | cons rawLine rest ih =>
      rw [hostLines] at hhosts
      rw [PlainLines] at hplain
      cases hclass : classify rawLine with
      | nothing =>
          rw [hclass] at hhosts hplain
          simp only [scan, skipped_of_nothing hclass, if_true]
          exact ih hhosts hplain hpart
      | bad =>
          rw [hclass] at hhosts
          cases hhosts
      | header kind' =>
          rw [hclass] at hhosts hplain
          obtain ⟨section', hprepared, htrim, hskips⟩ := header_parts hclass hplain.1
          simp only [scan, hprepared, headed_iff, headed_header, inner_header, htrim, if_true,
            Bool.false_eq_true, if_false]
          exact ih hhosts hplain.2 hskips
      | entry =>
          rw [hclass] at hhosts hplain
          obtain ⟨hheaded, hspelled, hrest⟩ := hplain
          obtain ⟨more, hmore, hhosts⟩ := Option.bind_eq_some_iff.mp hhosts
          obtain rfl := Option.some.inj hhosts
          have hkeep : ∀ a ∈ scan part rest, a ∈ scan part (rawLine :: rest) := by
            intro a ha
            simp only [scan, hheaded, Bool.false_eq_true, if_false]
            split_ifs
            · exact ha
            · exact ha
            · exact List.mem_append_right _ ha
          intro line hline addresses haddresses a ha
          split_ifs at hline with hkind
          · rcases List.mem_cons.mp hline with rfl | hline
            · obtain ⟨s, hs, rfl⟩ := hspelled hkind
              have htarget := Spelling.target hs haddresses ha
              have hnot : skips part = false := by
                rw [Bool.eq_false_iff, ne_eq, hpart]
                exact fun hne ↦ hne hkind
              have hskipped : isSkipped s.core = false := Spelling.not_skipped hs hclass
              simp only [scan, Spelling.prepared hs, hskipped, hnot, htarget, Bool.false_eq_true,
                if_false]
              rw [Spelling.prepared hs] at hheaded
              rw [hheaded, if_neg Bool.false_ne_true]
              exact List.mem_append_left _ List.mem_cons_self
            · exact hkeep a (ih hmore hrest hpart line hline addresses haddresses a ha)
          · exact hkeep a (ih hmore hrest hpart line hline addresses haddresses a ha)

theorem targets_cover {patterns : Patterns} {text : List Char} (hplain : PlainInventory text)
    {all : List (List Char)} (hall : addresses patterns text = some all) {a : List Char}
    (ha : a ∈ all) : ∃ targets, inventoryTargets text = some targets ∧ a ∈ targets := by
  obtain ⟨lines, hlines, hall⟩ := Option.bind_eq_some_iff.mp hall
  obtain ⟨each, heach, hall⟩ := Option.bind_eq_some_iff.mp hall
  obtain rfl := Option.some.inj hall
  obtain ⟨found, hfound, ha⟩ := List.mem_flatten.mp ha
  have hread := mapM_option_eq_some.mp heach
  obtain ⟨line, hline, hfound'⟩ := forall₂_exists_left hread hfound
  have hmem : a ∈ scan [] (text.splitOn '\n') :=
    scan_covers hlines hplain (by decide) line hline found hfound' a ha
  have hnonempty : ¬(scan [] (text.splitOn '\n')).dedup.isEmpty = true := by
    rw [List.isEmpty_iff]
    intro hnil
    have hdedup := List.mem_dedup.mpr hmem
    rw [hnil] at hdedup
    exact List.not_mem_nil hdedup
  refine ⟨_, if_neg hnonempty, ?_⟩
  rw [sorted, List.mem_insertionSort, List.mem_dedup]
  exact hmem

/-- The lock of a host that the inventory contains. -/
theorem lock_mem (env : Env) {patterns : Patterns} {text workspaceRoot : List Char}
    (hplain : PlainInventory text) {all : List (List Char)}
    (hall : addresses patterns text = some all) {a : List Char} (ha : a ∈ all) {files : List String}
    (hfiles : applyLockFiles env text workspaceRoot = some files) :
    lockFile env (hostResource a) ∈ files := by
  obtain ⟨targets, htargets, hmem⟩ := targets_cover hplain hall ha
  rw [applyLockFiles, htargets] at hfiles
  obtain rfl := Option.some.inj hfiles
  refine List.mem_map_of_mem ?_
  rw [sorted, List.mem_insertionSort]
  exact List.mem_cons_of_mem _ (List.mem_map_of_mem hmem)

end Coverage

end RemoteDevbox.Client.ApplyLocks
