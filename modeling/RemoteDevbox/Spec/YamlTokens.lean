import RemoteDevbox.Lib.Yaml.Scalar
import RemoteDevbox.Spec.Yaml

namespace RemoteDevbox.Spec

open Js

/-!
# The tokens of an emitted document

An emitted line is indentation, dashes and punctuation around at most one key
and one scalar. This file lists these tokens and says which of them a YAML
1.2 reader takes for what they were emitted from.
-/

/-- A key or a scalar, with whether it opens a line of the document. -/
inductive Token where
  | key (lineStart : Bool) (k : String)
  | value (lineStart : Bool) (v : Val)

inductive Piece where
  | glue (s : String)
  | token (t : Token)

namespace Token

def text : Token → Js String
  | key _ k => .ok k
  | value _ v => scalar v

/-- A key is followed by its colon, a scalar by the end of its line. -/
def place : Token → Yaml.Place
  | key lineStart _ => ⟨lineStart, some ':', true⟩
  | value lineStart _ => ⟨lineStart, none, false⟩

end Token

/-! ## The layout of a document -/

def renderLine : List Piece → Js String
  | [] => .ok ""
  | .glue s :: rest => do
      let more ← renderLine rest
      return s ++ more
  | .token t :: rest => do
      let here ← t.text
      let more ← renderLine rest
      return here ++ more

def hoistPieces (pad : String) : List (List Piece) → List (List Piece)
  | [] => [[.glue (pad ++ "- {}")]]
  | first :: rest => (.glue (pad ++ "- ") :: first.tail) :: rest

mutual

def layoutEntries (start : Bool) (pad : String) : List (String × Val) → List (List Piece)
  | [] => []
  | (key, value) :: rest => layoutEntry start pad key value ++ layoutEntries start pad rest

def layoutEntry (start : Bool) (pad key : String) : Val → List (List Piece)
  | .undef => []
  | .arr [] => [[.glue pad, .token (.key start key), .glue ": []"]]
  | .arr (x :: xs) =>
      [.glue pad, .token (.key start key), .glue ":"] :: layoutList (pad ++ "  ") (x :: xs)
  | .obj fs =>
      if fs.all fun p ↦ p.2.isUndef then [[.glue pad, .token (.key start key), .glue ": {}"]]
      else [.glue pad, .token (.key start key), .glue ":"] :: layoutEntries false (pad ++ "  ") fs
  | v => [[.glue pad, .token (.key start key), .glue ": ", .token (.value false v)]]

def layoutList (pad : String) : List Val → List (List Piece)
  | [] => []
  | x :: xs => layoutItem pad x ++ layoutList pad xs

def layoutItem (pad : String) : Val → List (List Piece)
  | .arr [] => [[.glue (pad ++ "- []")]]
  | .arr (x :: xs) => [.glue (pad ++ "-")] :: layoutList (pad ++ "  ") (x :: xs)
  | .obj fs => hoistPieces pad (layoutEntries false (pad ++ "  ") fs)
  | v => [[.glue (pad ++ "- "), .token (.value false v)]]

end

def layoutLines : Val → List (List Piece)
  | .arr xs => layoutList "" xs
  | .obj fs => layoutEntries true "" fs
  | v => [[.token (.value true v)]]

def Piece.token? : Piece → Option Token
  | .glue _ => none
  | .token t => some t

/-- Every key and scalar of the document. -/
def tokens (v : Val) : List Token := (layoutLines v).flatten.filterMap Piece.token?

/-- Every line of a block of entries opens with the block's indentation. -/
theorem layoutEntries_lead (start : Bool) (pad : String) (fs : List (String × Val)) :
    ∀ line ∈ (layoutEntries start pad fs).head?, ∃ rest, line = .glue pad :: rest := by
  induction fs with
  | nil => simp [layoutEntries]
  | cons p fs ih =>
      obtain ⟨k, v⟩ := p
      intro line hline
      rw [layoutEntries] at hline
      cases v with
      | undef => exact ih line (by simpa [layoutEntry] using hline)
      | arr xs => cases xs <;> exact ⟨_, by simpa [layoutEntry, eq_comm] using hline⟩
      | obj gs =>
          rw [layoutEntry] at hline
          split at hline <;> exact ⟨_, by simpa [eq_comm] using hline⟩
      | _ => exact ⟨_, by simpa [layoutEntry, eq_comm] using hline⟩

theorem sliceFrom_append (a b : String) : sliceFrom a.length (a ++ b) = b := by
  rw [sliceFrom, String.toList_append, ← String.length_toList, List.drop_left]
  exact String.ofList_toList

theorem render_hoistPieces (pad : String) {lines : List (List Piece)}
    (hlead : ∀ line ∈ lines.head?, ∃ rest, line = .glue (pad ++ "  ") :: rest) :
    (hoistPieces pad lines).mapM renderLine = do
      let sub ← lines.mapM renderLine
      return hoist pad sub := by
  cases lines with
  | nil => simp [hoistPieces, hoist, renderLine]
  | cons first others =>
      obtain ⟨rest, rfl⟩ := hlead first rfl
      have hslice : ∀ more, sliceFrom (pad.length + 2) (pad ++ "  " ++ more) = more := by
        intro more
        have hlen : pad.length + 2 = (pad ++ "  ").length := by
          rw [String.length_append]
          rfl
        rw [hlen, sliceFrom_append]
      simp only [hoistPieces, List.tail_cons, List.mapM_cons, renderLine, bind_assoc, pure_bind,
        hoist, hslice]

mutual

theorem emitEntries_eq_render (start : Bool) (pad : String) (fs : List (String × Val)) :
    emitEntries pad fs = (layoutEntries start pad fs).mapM renderLine := by
  cases fs with
  | nil => rfl
  | cons p rest =>
      obtain ⟨k, v⟩ := p
      rw [emitEntries, layoutEntries, List.mapM_append, emitEntry_eq_render start pad k v,
        emitEntries_eq_render start pad rest]

theorem emitEntry_eq_render (start : Bool) (pad k : String) (v : Val) :
    emitEntry pad k v = (layoutEntry start pad k v).mapM renderLine := by
  cases v with
  | undef => rfl
  | arr xs =>
      cases xs with
      | nil => simp [emitEntry, layoutEntry, renderLine, Token.text, String.append_assoc]
      | cons x xs =>
          rw [emitEntry, layoutEntry, emitList_eq_render]
          simp [renderLine, Token.text, String.append_assoc]
  | obj fs =>
      rw [emitEntry, layoutEntry]
      split
      · simp [renderLine, Token.text, String.append_assoc]
      · rw [emitEntries_eq_render false]
        simp [renderLine, Token.text, String.append_assoc]
  | _ => simp [emitEntry, layoutEntry, renderLine, Token.text, String.append_assoc]

theorem emitList_eq_render (pad : String) (xs : List Val) :
    emitList pad xs = (layoutList pad xs).mapM renderLine := by
  cases xs with
  | nil => rfl
  | cons x rest =>
      rw [emitList, layoutList, List.mapM_append, emitItem_eq_render pad x,
        emitList_eq_render pad rest]

theorem emitItem_eq_render (pad : String) (v : Val) :
    emitItem pad v = (layoutItem pad v).mapM renderLine := by
  cases v with
  | arr xs =>
      cases xs with
      | nil => simp [emitItem, layoutItem, renderLine]
      | cons x xs =>
          rw [emitItem, layoutItem, emitList_eq_render]
          simp [renderLine]
  | obj fs =>
      rw [emitItem, layoutItem, render_hoistPieces pad (layoutEntries_lead false _ fs),
        emitEntries_eq_render false]
  | _ => simp [emitItem, layoutItem, renderLine, Token.text]

end

/-- The emitter writes the layout and nothing else. -/
theorem emitLines_eq_render (v : Val) : emitLines v = (layoutLines v).mapM renderLine := by
  cases v with
  | arr xs => exact emitList_eq_render "" xs
  | obj fs => exact emitEntries_eq_render true "" fs
  | _ => simp [emitLines, layoutLines, renderLine, Token.text]

/-! ## Which tokens read back -/

/-- The scalar a value is; structured values have none. -/
def asScalar : Val → Option Yaml.Scalar
  | .null => some .null
  | .bool b => some (.bool b)
  | .num (.fin d) => some (.num d)
  | .num (.inf neg) => some (.inf neg)
  | .num .nan => some .nan
  | .str s => some (.str s.toList)
  | _ => none

namespace Token

def denotes : Token → Option Yaml.Scalar
  | key _ k => some (.str k.toList)
  | value _ v => asScalar v

/-- The token is emitted, and a reader takes it for what it was emitted from. -/
def ReadsBack (t : Token) : Prop :=
  ∃ text scalar, t.text = .ok text ∧ t.denotes = some scalar ∧
    Yaml.read t.place text.toList = some scalar

end Token

/-- A string that is written without quotes and is not read as that string. -/
def misreadPlain (lineStart : Bool) (s : String) : Bool :=
  s.toList.head? == some '@' || s == "-" ||
    Yaml.INFS.contains (Decimal.splitSign s.toList).2 || Yaml.NANS.contains s.toList ||
    (lineStart && (s == "---" || s == "..."))

/-- The tokens that survive: keys that stand for themselves, quoted strings
without control characters, plain strings outside the few misread ones, and
every number but the three that are not finite. -/
def Token.safe : Token → Bool
  | .key lineStart k => Yaml.standsForItself ⟨lineStart, some ':', true⟩ k.toList
  | .value lineStart (.str s) =>
      if needsQuote s then s.toList.all fun c ↦ !Yaml.isControl c else !misreadPlain lineStart s
  | .value _ (.num n) =>
      match n with
      | .fin _ => true
      | _ => false
  | .value _ .null => true
  | .value _ (.bool _) => true
  | .value _ _ => false

theorem guarded_eq_escape (cs : List Char) : guarded cs = Yaml.escape cs := by
  induction cs with
  | nil => rfl
  | cons c cs ih => simp [guarded, Yaml.escape, ih]

/-- What the reader's grammar asks of the characters of a plain string. -/
theorem solid_of_plainChar {c : Char} (h : plainChar c = true) :
    Yaml.isSolid c = true ∧ Yaml.isWhite c = false ∧ c ≠ ':' ∧ c ≠ '#' ∧
      Text.isSpace c = false ∧ (c ∈ Yaml.INDICATORS → c = '-' ∨ c = '@') := by
  have hlt : c.toNat < 128 := by
    simp only [plainChar, Bool.or_eq_true, beq_iff_eq] at h
    rcases h with ((((((h | rfl) | rfl) | rfl) | rfl) | rfl) | rfl)
    · exact Regex.isAlnum_lt h
    all_goals decide
  exact Regex.ascii_forall (P := fun c ↦ plainChar c = true → Yaml.isSolid c = true ∧
    Yaml.isWhite c = false ∧ c ≠ ':' ∧ c ≠ '#' ∧ Text.isSpace c = false ∧
    (c ∈ Yaml.INDICATORS → c = '-' ∨ c = '@')) (by decide +kernel) hlt h

theorem plainRest_of_plainChars {prev : Char} {cs : List Char} (hprev : plainChar prev = true)
    (hcs : ∀ c ∈ cs, plainChar c = true) : Yaml.plainRest none prev cs = true := by
  induction cs generalizing prev with
  | nil => simp [Yaml.plainRest, (solid_of_plainChar hprev).2.1]
  | cons c cs ih =>
      have hc := hcs c List.mem_cons_self
      obtain ⟨hsolid, hwhite, hcolon, hhash, _⟩ := solid_of_plainChar hc
      have hrest := ih hc fun d hd ↦ hcs d (List.mem_cons_of_mem _ hd)
      simp [Yaml.plainRest, Yaml.plainInner, hrest, hsolid, hcolon, hhash]

/-- A marker is exactly its three characters, as no white space can follow. -/
theorem isMarker_of_plainChars {cs : List Char} (hcs : ∀ c ∈ cs, plainChar c = true) :
    Yaml.isMarker none cs = true ↔ cs = ['-', '-', '-'] ∨ cs = ['.', '.', '.'] := by
  have htail : ∀ ds : List Char, (∀ d ∈ ds, plainChar d = true) →
      ((ds.head? <|> none).all Yaml.isWhite = true ↔ ds = []) := by
    intro ds hds
    cases ds with
    | nil => simp
    | cons d ds => simp [(solid_of_plainChar (hds d List.mem_cons_self)).2.1]
  unfold Yaml.isMarker
  split
  · rename_i ds
    rw [htail ds fun d hd ↦ hcs d (by simp [hd])]
    simp
  · rename_i ds
    rw [htail ds fun d hd ↦ hcs d (by simp [hd])]
    simp
  · rename_i hdash hdot
    simp only [Bool.false_eq_true, false_iff, not_or]
    refine ⟨?_, ?_⟩
    · rintro rfl
      exact hdash [] rfl
    · rintro rfl
      exact hdot [] rfl

theorem isPlain_iff {cs : List Char} (lineStart : Bool) (hne : cs ≠ [])
    (hcs : ∀ c ∈ cs, plainChar c = true) :
    Yaml.isPlain ⟨lineStart, none, false⟩ cs = true ↔
      cs.head? ≠ some '@' ∧ cs ≠ ['-'] ∧
        ¬ (lineStart = true ∧ (cs = ['-', '-', '-'] ∨ cs = ['.', '.', '.'])) := by
  cases cs with
  | nil => exact (hne rfl).elim
  | cons c cs =>
      have hc := hcs c List.mem_cons_self
      have htail : ∀ d ∈ cs, plainChar d = true := fun d hd ↦ hcs d (List.mem_cons_of_mem _ hd)
      obtain ⟨hsolid, _, _, _, _, hindicator⟩ := solid_of_plainChar hc
      have hmarker := isMarker_of_plainChars hcs
      have hfirst : Yaml.plainFirst c (cs.head? <|> none) = true ↔ c ≠ '@' ∧ c :: cs ≠ ['-'] := by
        by_cases hat : c = '@'
        · subst hat
          simp [Yaml.plainFirst, Yaml.INDICATORS]
        · by_cases hdash : c = '-'
          · subst hdash
            cases cs with
            | nil => simp [Yaml.plainFirst, Yaml.INDICATORS]
            | cons d ds =>
                simp [Yaml.plainFirst, (solid_of_plainChar (htail d List.mem_cons_self)).1]
          · have hnot : c ∉ Yaml.INDICATORS := fun h ↦ (hindicator h).elim hdash hat
            simp [Yaml.plainFirst, hsolid, hnot, hat, hdash]
      rw [Yaml.isPlain, plainRest_of_plainChars hc htail]
      simp only [Bool.and_true, Bool.and_eq_true, Bool.not_eq_true', Bool.and_eq_false_iff,
        hfirst, List.head?_cons, ne_eq, Option.some.injEq, not_and, and_assoc]
      rw [← hmarker]
      cases lineStart <;> simp

/-! The typing of a plain string agrees with the test of the emitter. -/

theorem trimChars_of_plainChars {cs : List Char} (hcs : ∀ c ∈ cs, plainChar c = true) :
    Text.trimChars cs = cs := by
  have hdrop : ∀ ds : List Char, (∀ d ∈ ds, plainChar d = true) →
      ds.dropWhile Text.isSpace = ds := by
    intro ds hds
    cases ds with
    | nil => rfl
    | cons d ds =>
        simp [(solid_of_plainChar (hds d List.mem_cons_self)).2.2.2.2.1]
  rw [Text.trimChars, hdrop cs hcs, hdrop cs.reverse fun d hd ↦ hcs d (List.mem_reverse.mp hd),
    List.reverse_reverse]

theorem isRadixLiteral_of_readBased {cs : List Char} {n : ℕ} (h : Yaml.readBased cs = some n) :
    Text.isRadixLiteral cs = true := by
  unfold Yaml.readBased at h
  split at h
  · obtain ⟨hne, hall⟩ := Yaml.readBase_digits h
    simp only [Text.isRadixLiteral, Text.radixDigit]
    simp [hne]
    intro c hc
    have := hall c hc
    unfold Yaml.octDigit at this
    split at this
    · assumption
    · simp at this
  · obtain ⟨hne, hall⟩ := Yaml.readBase_digits h
    simp only [Text.isRadixLiteral, Text.radixDigit]
    simp [hne]
    intro c hc
    have := hall c hc
    unfold Yaml.hexDigit at this
    split at this
    · simp [Regex.isDigit, *]
    · split at this
      · simp [*]
      · split at this
        · simp [*]
        · simp at this
  · cases h

theorem resolve_plain {s : String} (hcs : ∀ c ∈ s.toList, plainChar c = true)
    (hreserved : Text.lower s ∉ RESERVED) (hnumeric : Text.isNumeric s = false) :
    Yaml.resolve s.toList = .str s.toList ↔
      (Decimal.splitSign s.toList).2 ∉ Yaml.INFS ∧ s.toList ∉ Yaml.NANS := by
  have hword : ∀ words : List (List Char),
      (∀ w ∈ words, Text.lower (String.ofList w) ∈ RESERVED) → s.toList ∉ words := by
    intro words hwords hmem
    apply hreserved
    simpa using hwords _ hmem
  have hnull := hword Yaml.NULLS (by decide +kernel)
  have htrue := hword Yaml.TRUES (by decide +kernel)
  have hfalse := hword Yaml.FALSES (by decide +kernel)
  simp only [Text.isNumeric, trimChars_of_plainChars hcs, Bool.or_eq_false_iff] at hnumeric
  obtain ⟨⟨_, hread⟩, hradix⟩ := hnumeric
  have hbased : Yaml.readBased s.toList = none := by
    cases h : Yaml.readBased s.toList with
    | none => rfl
    | some n =>
        rw [isRadixLiteral_of_readBased h] at hradix
        cases hradix
  have hdecimal : Decimal.read s.toList = none := by simpa using hread
  simp only [Yaml.resolve, hnull, htrue, hfalse, hbased, hdecimal, if_false]
  by_cases hinf : (Decimal.splitSign s.toList).2 ∈ Yaml.INFS
  · simp [hinf]
  · by_cases hnan : s.toList ∈ Yaml.NANS <;> simp [hinf, hnan]

theorem needsQuote_eq_false {s : String} (h : needsQuote s = false) :
    s.toList ≠ [] ∧ (∀ c ∈ s.toList, plainChar c = true) ∧ Text.lower s ∉ RESERVED ∧
      Text.isNumeric s = false := by
  simp only [needsQuote, Bool.or_eq_false_iff, Bool.not_eq_false', beq_eq_false_iff_ne] at h
  obtain ⟨⟨⟨_, hplain⟩, hreserved⟩, hnumeric⟩ := h
  obtain ⟨hnil, hall⟩ := Regex.isMatch_plus_cls.mp hplain
  exact ⟨hnil, hall, by simpa using hreserved, hnumeric⟩

theorem misreadPlain_eq_false {lineStart : Bool} {s : String} :
    misreadPlain lineStart s = false ↔
      (s.toList.head? ≠ some '@' ∧ s.toList ≠ ['-'] ∧
        ¬ (lineStart = true ∧ (s.toList = ['-', '-', '-'] ∨ s.toList = ['.', '.', '.']))) ∧
      (Decimal.splitSign s.toList).2 ∉ Yaml.INFS ∧ s.toList ∉ Yaml.NANS := by
  have hdash : s.toList = ['-'] ↔ s = "-" := @String.toList_inj s "-"
  have hstart : s.toList = ['-', '-', '-'] ↔ s = "---" := @String.toList_inj s "---"
  have hend : s.toList = ['.', '.', '.'] ↔ s = "..." := @String.toList_inj s "..."
  simp only [ne_eq, hdash, hstart, hend]
  generalize hinf : Yaml.INFS.contains (Decimal.splitSign s.toList).2 = inf
  generalize hnan : Yaml.NANS.contains s.toList = nan
  have hinf' : (Decimal.splitSign s.toList).2 ∉ Yaml.INFS ↔ inf = false := by
    rw [← hinf]
    simp
  have hnan' : s.toList ∉ Yaml.NANS ↔ nan = false := by
    rw [← hnan]
    simp
  rw [hinf', hnan', misreadPlain, hinf, hnan]
  simp only [Bool.or_eq_false_iff, beq_eq_false_iff_ne, ne_eq, Bool.and_eq_false_iff]
  cases lineStart <;> simp <;> tauto

theorem plain_readsBack_iff {s : String} (lineStart : Bool) (h : needsQuote s = false) :
    Yaml.read ⟨lineStart, none, false⟩ s.toList = some (.str s.toList) ↔
      misreadPlain lineStart s = false := by
  obtain ⟨hne, hcs, hreserved, hnumeric⟩ := needsQuote_eq_false h
  rw [Yaml.read_eq_self_iff, misreadPlain_eq_false, ← isPlain_iff lineStart hne hcs,
    ← resolve_plain hcs hreserved hnumeric]
  simp [Yaml.standsForItself]

theorem quoted_readsBack_iff (lineStart : Bool) (s : String) :
    Yaml.read ⟨lineStart, none, false⟩ (quoted s).toList = some (.str s.toList) ↔
      ∀ c ∈ s.toList, Yaml.isControl c = false := by
  have htext : (quoted s).toList = '"' :: (Yaml.escape s.toList ++ ['"']) := by
    simp [quoted, guarded_eq_escape]
  rw [htext, Yaml.read_quoted _ rfl, ← Yaml.readDouble_escape_iff]
  simp

theorem plainChar_of_isNumeralChar {c : Char} (h : Number.isNumeralChar c = true) :
    plainChar c = true := by
  simp only [Number.isNumeralChar, Bool.or_eq_true, beq_iff_eq] at h
  rcases h with (((h | rfl) | rfl) | rfl) | rfl
  · have hdigit : Regex.isDigit c = true := h
    simp [plainChar, Regex.isAlnum, hdigit]
  all_goals decide

/-- A numeral is plain text that a reader resolves to its number. -/
theorem number_readsBack (lineStart : Bool) (d : Decimal) :
    Yaml.read ⟨lineStart, none, false⟩ (Number.fin d).text = some (.num d) := by
  have hread := Number.read_text d
  have hcs : ∀ c ∈ (Number.fin d).text, plainChar c = true := fun c hc ↦
    plainChar_of_isNumeralChar (Number.isNumeralChar_text d c hc)
  have hnot : ∀ cs, Decimal.read cs = none → (Number.fin d).text ≠ cs := by
    rintro cs hnone rfl
    rw [hnone] at hread
    cases hread
  have hne := hnot [] (by decide +kernel)
  have hat : (Number.fin d).text.head? ≠ some '@' := by
    intro hhead
    have hchar := Number.isNumeralChar_text d '@' (List.mem_of_mem_head? hhead)
    exact absurd hchar (by decide)
  have hplain : Yaml.isPlain ⟨lineStart, none, false⟩ (Number.fin d).text = true := by
    rw [isPlain_iff lineStart hne hcs]
    refine ⟨hat, hnot _ (by decide +kernel), ?_⟩
    rintro ⟨_, hstart | hend⟩
    · exact hnot _ (by decide +kernel) hstart
    · exact hnot _ (by decide +kernel) hend
  rw [Yaml.read_of_isPlain rfl hplain, Yaml.resolve_of_read hread]

/-- Which of the emitted keys and scalars a reader takes for what they were:
exactly the safe ones. -/
theorem token_readsBack_iff (t : Token) : t.ReadsBack ↔ t.safe = true := by
  cases t with
  | key lineStart k =>
      simp only [Token.ReadsBack, Token.text, Token.denotes, Token.place, Token.safe]
      rw [← Yaml.read_eq_self_iff]
      simp
  | value lineStart v =>
      simp only [Token.ReadsBack, Token.text, Token.denotes, Token.place, Token.safe]
      cases v with
      | undef => simp [scalar]
      | fn name => simp [scalar]
      | arr xs => simp [scalar]
      | obj fs => simp [scalar]
      | null => cases lineStart <;> simp [scalar, asScalar] <;> decide +kernel
      | bool b => cases lineStart <;> cases b <;> simp [scalar, asScalar] <;> decide +kernel
      | num n =>
          cases n with
          | fin d => simp [scalar, asScalar, Number.toStr, number_readsBack]
          | inf neg =>
              cases lineStart <;> cases neg <;> simp [scalar, asScalar, Number.toStr, Number.text] <;>
                decide +kernel
          | nan =>
              cases lineStart <;> simp [scalar, asScalar, Number.toStr, Number.text] <;> decide +kernel
      | str s =>
          cases hquote : needsQuote s with
          | true =>
              have hiff := quoted_readsBack_iff lineStart s
              simp [scalar, asScalar, hquote, hiff]
          | false =>
              have hiff := plain_readsBack_iff lineStart hquote
              simp [scalar, asScalar, hquote, hiff]

/-- Every key and scalar of an emitted document, whatever the document, reads
back exactly when it is safe; the rest of the text is indentation, dashes and
punctuation. -/
theorem toYaml_round_trip (v : Val) :
    emitLines v = (layoutLines v).mapM renderLine ∧
      ∀ t ∈ tokens v, t.ReadsBack ↔ t.safe = true :=
  ⟨emitLines_eq_render v, fun t _ ↦ token_readsBack_iff t⟩

/-- A branch name with a leading at sign is written bare, and no plain scalar
starts that way. -/
theorem branch_misread :
    Token.value false "@next" ∈ tokens (.obj [("branch", "@next")]) ∧
      toYaml (.obj [("branch", "@next")]) = .ok "branch: @next\n" ∧
      ¬ (Token.value false "@next").ReadsBack := by
  refine ⟨by simp [tokens, layoutLines, layoutEntries, layoutEntry, Piece.token?],
    by decide +kernel, ?_⟩
  rw [token_readsBack_iff]
  decide +kernel

end RemoteDevbox.Spec
