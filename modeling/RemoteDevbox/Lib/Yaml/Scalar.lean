import RemoteDevbox.Lib.Decimal

namespace Yaml

/-!
# Scalars of YAML 1.2

The reading of one scalar token, quoted or plain on a single line, under the
core schema. A token is read in its place: whether it opens its line, what
follows it there, and whether it is an implicit key.
-/

inductive Scalar where
  | null
  | bool (b : Bool)
  | num (d : Decimal)
  | inf (neg : Bool)
  | nan
  | str (s : List Char)
  deriving DecidableEq

/-! ## Characters -/

def isBreak (c : Char) : Bool := c == '\n' || c == '\r'

def isWhite (c : Char) : Bool := c == ' ' || c == '\t'

def isControl (c : Char) : Bool := c.toNat < 0x20 && c != '\t'

/-- `c-printable` -/
def isPrintable (c : Char) : Bool :=
  let n := c.toNat
  n == 0x09 || n == 0x0A || n == 0x0D || (0x20 ≤ n && n ≤ 0x7E) || n == 0x85 ||
    (0xA0 ≤ n && n ≤ 0xD7FF) || (0xE000 ≤ n && n ≤ 0xFFFD) || 0x10000 ≤ n

/-- `ns-char` -/
def isSolid (c : Char) : Bool :=
  isPrintable c && !isBreak c && !isWhite c && c.toNat != 0xFEFF

/-- `c-indicator` -/
def INDICATORS : List Char :=
  ['-', '?', ':', ',', '[', ']', '{', '}', '#', '&', '*', '!', '|', '>', '\'', '"', '%', '@',
    Char.ofNat 96]

/-! ## The core schema -/

def readBase (base : ℕ) (digit : Char → Option ℕ) (cs : List Char) : Option ℕ :=
  if cs = [] then none
  else cs.foldl (fun acc c ↦ acc.bind fun n ↦ (digit c).map fun d ↦ base * n + d) (some 0)

def octDigit (c : Char) : Option ℕ :=
  if '0' ≤ c ∧ c ≤ '7' then some (c.toNat - '0'.toNat) else none

def hexDigit (c : Char) : Option ℕ :=
  if '0' ≤ c ∧ c ≤ '9' then some (c.toNat - '0'.toNat)
  else if 'a' ≤ c ∧ c ≤ 'f' then some (10 + c.toNat - 'a'.toNat)
  else if 'A' ≤ c ∧ c ≤ 'F' then some (10 + c.toNat - 'A'.toNat)
  else none

theorem foldl_none {digit : Char → Option ℕ} {base : ℕ} (cs : List Char) :
    cs.foldl (fun acc c ↦ acc.bind fun n ↦ (digit c).map fun d ↦ base * n + d) none = none := by
  induction cs with
  | nil => rfl
  | cons c cs ih => exact ih

theorem readBase_digits {base n : ℕ} {digit : Char → Option ℕ} {cs : List Char}
    (h : readBase base digit cs = some n) : cs ≠ [] ∧ ∀ c ∈ cs, (digit c).isSome = true := by
  have hne : cs ≠ [] := by
    rintro rfl
    simp [readBase] at h
  refine ⟨hne, ?_⟩
  rw [readBase, if_neg hne] at h
  generalize some 0 = acc at h
  clear hne
  induction cs generalizing acc with
  | nil => simp
  | cons c cs ih =>
      rw [List.foldl_cons] at h
      cases hc : digit c with
      | none =>
          rw [hc] at h
          have hacc : (acc.bind fun n ↦ (none : Option ℕ).map fun d ↦ base * n + d) = none := by
            cases acc <;> rfl
          rw [hacc, foldl_none] at h
          cases h
      | some d =>
          intro e he
          rcases List.mem_cons.mp he with rfl | he
          · rw [hc]
            rfl
          · exact ih _ h e he

/-- `0o` and `0x` integers. -/
def readBased : List Char → Option ℕ
  | '0' :: 'o' :: cs => readBase 8 octDigit cs
  | '0' :: 'x' :: cs => readBase 16 hexDigit cs
  | _ => none

def NULLS : List (List Char) := ["null".toList, "Null".toList, "NULL".toList, "~".toList]

def TRUES : List (List Char) := ["true".toList, "True".toList, "TRUE".toList]

def FALSES : List (List Char) := ["false".toList, "False".toList, "FALSE".toList]

def INFS : List (List Char) := [".inf".toList, ".Inf".toList, ".INF".toList]

def NANS : List (List Char) := [".nan".toList, ".NaN".toList, ".NAN".toList]

/-- The tag resolution of a plain scalar. -/
def resolve (cs : List Char) : Scalar :=
  if cs ∈ NULLS then .null
  else if cs ∈ TRUES then .bool true
  else if cs ∈ FALSES then .bool false
  else if let some n := readBased cs then .num (.ofInt n)
  else if let some d := Decimal.read cs then .num d
  else if (Decimal.splitSign cs).2 ∈ INFS then .inf (Decimal.splitSign cs).1
  else if cs ∈ NANS then .nan
  else .str cs

theorem readBased_of_read {cs : List Char} {d : Decimal} (h : Decimal.read cs = some d) :
    readBased cs = none := by
  have hx : Decimal.isDigit 'x' = false := by decide
  have ho : Decimal.isDigit 'o' = false := by decide
  have hzero : Decimal.isDigit '0' = true := by decide
  unfold readBased
  split
  · simp [Decimal.read, Decimal.splitSign, Decimal.readUnsigned, hzero, ho,
      Decimal.readExponent] at h
  · simp [Decimal.read, Decimal.splitSign, Decimal.readUnsigned, hzero, hx,
      Decimal.readExponent] at h
  · rfl

/-- A numeral is a number. -/
theorem resolve_of_read {cs : List Char} {d : Decimal} (h : Decimal.read cs = some d) :
    resolve cs = .num d := by
  have hword : ∀ words : List (List Char), (∀ w ∈ words, Decimal.read w = none) →
      cs ∉ words := by
    intro words hwords hmem
    rw [hwords cs hmem] at h
    cases h
  have hnull := hword NULLS (by decide +kernel)
  have htrue := hword TRUES (by decide +kernel)
  have hfalse := hword FALSES (by decide +kernel)
  simp [resolve, hnull, htrue, hfalse, readBased_of_read h, h]

/-! ## Plain scalars -/

/-- Where a token stands. -/
structure Place where
  lineStart : Bool
  follow : Option Char
  implicitKey : Bool

/-- `ns-plain-first` -/
def plainFirst (c : Char) (next : Option Char) : Bool :=
  (isSolid c && !INDICATORS.contains c) ||
    ((c == '?' || c == ':' || c == '-') && next.any isSolid)

/-- `ns-plain-char`, or white space inside the scalar. -/
def plainInner (prev c : Char) (next : Option Char) : Bool :=
  isWhite c || (isSolid c && c != ':' && c != '#') || (c == '#' && isSolid prev) ||
    (c == ':' && next.any isSolid)

def plainRest (follow : Option Char) (prev : Char) : List Char → Bool
  | [] => !isWhite prev
  | c :: cs => plainInner prev c (cs.head? <|> follow) && plainRest follow c cs

/-- `---` or `...` at the start of a line, before white space or its end. -/
def isMarker (follow : Option Char) : List Char → Bool
  | '-' :: '-' :: '-' :: cs => (cs.head? <|> follow).all isWhite
  | '.' :: '.' :: '.' :: cs => (cs.head? <|> follow).all isWhite
  | _ => false

/-- `ns-plain-one-line` -/
def isPlain (p : Place) : List Char → Bool
  | [] => false
  | c :: cs =>
      plainFirst c (cs.head? <|> p.follow) && plainRest p.follow c cs &&
        !(p.lineStart && isMarker p.follow (c :: cs))

/-! ## Quoted scalars -/

/-- The escapes of one character. -/
def ESCAPES : List (Char × Char) :=
  [('0', Char.ofNat 0), ('a', Char.ofNat 7), ('b', Char.ofNat 8), ('t', '\t'), ('\t', '\t'),
    ('n', '\n'), ('v', Char.ofNat 0x0B), ('f', Char.ofNat 0x0C), ('r', '\r'),
    ('e', Char.ofNat 0x1B), (' ', ' '), ('"', '"'), ('/', '/'), ('\\', '\\'),
    ('N', Char.ofNat 0x85), ('_', Char.ofNat 0xA0), ('L', Char.ofNat 0x2028),
    ('P', Char.ofNat 0x2029)]

/-- The digits a numeric escape takes. -/
def hexLength : Char → Option ℕ
  | 'x' => some 2
  | 'u' => some 4
  | 'U' => some 8
  | _ => none

/-- The character of an escape and the text after it. -/
def unescape : List Char → Option (Char × List Char)
  | [] => none
  | c :: cs =>
      match hexLength c with
      | some k =>
          if k ≤ cs.length then
            (readBase 16 hexDigit (cs.take k)).map fun n ↦ (Char.ofNat n, cs.drop k)
          else none
      | none => (ESCAPES.lookup c).map fun d ↦ (d, cs)

/-- What `breaks` line breaks in a row fold to. -/
def fold : ℕ → List Char
  | 0 => []
  | 1 => [' ']
  | n + 2 => List.replicate (n + 1) '\n'

theorem unescape_length {cs rest : List Char} {d : Char} (h : unescape cs = some (d, rest)) :
    rest.length < cs.length := by
  cases cs with
  | nil => simp [unescape] at h
  | cons c cs =>
      cases hk : hexLength c with
      | some k =>
          simp only [unescape, hk] at h
          split at h
          · obtain ⟨n, _, hn⟩ := Option.map_eq_some_iff.mp h
            obtain ⟨_, rfl⟩ := Prod.mk.inj hn
            simp only [List.length_drop, List.length_cons]
            omega
          · simp at h
      | none =>
          simp only [unescape, hk] at h
          obtain ⟨n, _, hn⟩ := Option.map_eq_some_iff.mp h
          obtain ⟨_, rfl⟩ := Prod.mk.inj hn
          simp

/-- The text after an opening double quote, up to a closing quote that ends
the token. `white` is the white space met since the last other character and
`breaks` the line breaks; white space around a break is dropped. Escaped line
breaks are not read. -/
def readDouble (white : List Char) (breaks : ℕ) (cs : List Char) : Option (List Char) :=
  match cs with
  | [] => none
  | c :: cs =>
      if c = '"' then if cs = [] then some (white ++ fold breaks) else none
      else if isWhite c then
        if breaks = 0 then readDouble (white ++ [c]) 0 cs else readDouble [] breaks cs
      else if isBreak c then readDouble [] (breaks + 1) cs
      else if isControl c then none
      else if c = '\\' then
        match h : unescape cs with
        | none => none
        | some (d, rest) =>
            have := unescape_length h
            (readDouble [] 0 rest).map fun out ↦ white ++ fold breaks ++ d :: out
      else (readDouble [] 0 cs).map fun out ↦ white ++ fold breaks ++ c :: out
termination_by cs.length
decreasing_by all_goals grind

/-- The text after an opening single quote, on one line. -/
def readSingle : List Char → Option (List Char)
  | [] => none
  | ['\''] => some []
  | '\'' :: '\'' :: cs => (readSingle cs).map fun out ↦ '\'' :: out
  | '\'' :: _ => none
  | c :: cs => if isControl c then none else (readSingle cs).map fun out ↦ c :: out

/-- The escape of a text that only guards backslashes and double quotes. -/
def escape : List Char → List Char
  | [] => []
  | c :: cs => if c = '\\' ∨ c = '"' then '\\' :: c :: escape cs else c :: escape cs

theorem unescape_escaped {c : Char} (hc : c = '\\' ∨ c = '"') (cs : List Char) :
    unescape (c :: cs) = some (c, cs) := by
  rcases hc with rfl | rfl <;> rfl

theorem readDouble_quote (white : List Char) (breaks : ℕ) :
    readDouble white breaks ['"'] = some (white ++ fold breaks) := by
  unfold readDouble
  simp

theorem readDouble_white {c : Char} (hc : isWhite c = true) (white cs : List Char) (breaks : ℕ) :
    readDouble white breaks (c :: cs) =
      if breaks = 0 then readDouble (white ++ [c]) 0 cs else readDouble [] breaks cs := by
  have hquote : c ≠ '"' := by rintro rfl; exact absurd hc (by decide)
  conv_lhs => unfold readDouble
  simp [hquote, hc]

theorem readDouble_break {c : Char} (hc : isBreak c = true) (white cs : List Char) (breaks : ℕ) :
    readDouble white breaks (c :: cs) = readDouble [] (breaks + 1) cs := by
  have hquote : c ≠ '"' := by rintro rfl; exact absurd hc (by decide)
  have hwhite : isWhite c = false := by
    simp only [isBreak, Bool.or_eq_true, beq_iff_eq] at hc
    rcases hc with rfl | rfl <;> rfl
  conv_lhs => unfold readDouble
  simp [hquote, hc, hwhite]

theorem readDouble_control {c : Char} (hc : isControl c = true) (hb : isBreak c = false)
    (white cs : List Char) (breaks : ℕ) : readDouble white breaks (c :: cs) = none := by
  have hquote : c ≠ '"' := by rintro rfl; exact absurd hc (by decide)
  have hwhite : isWhite c = false := by
    by_contra h
    simp only [isWhite, Bool.not_eq_false, Bool.or_eq_true, beq_iff_eq] at h
    rcases h with rfl | rfl <;> exact absurd hc (by decide)
  unfold readDouble
  simp [hquote, hc, hb, hwhite]

theorem readDouble_escaped {c : Char} (hc : c = '\\' ∨ c = '"') (white cs : List Char)
    (breaks : ℕ) : readDouble white breaks ('\\' :: c :: cs) =
      (readDouble [] 0 cs).map fun out ↦ white ++ fold breaks ++ c :: out := by
  have hwhite : isWhite '\\' = false := by decide
  have hbreak : isBreak '\\' = false := by decide
  have hcontrol : isControl '\\' = false := by decide
  conv_lhs => unfold readDouble
  simp only [hwhite, hbreak, hcontrol]
  simp
  split
  · rename_i h
    rw [unescape_escaped hc] at h
    cases h
  · rename_i d rest h
    rw [unescape_escaped hc] at h
    cases h
    rfl

/-- A character that stands for itself. -/
theorem readDouble_self {c : Char} (hquote : c ≠ '"') (hslash : c ≠ '\\')
    (hwhite : isWhite c = false) (hcontrol : isControl c = false) (white cs : List Char)
    (breaks : ℕ) : readDouble white breaks (c :: cs) =
      (readDouble [] 0 cs).map fun out ↦ white ++ fold breaks ++ c :: out := by
  have hbreak : isBreak c = false := by
    by_contra h
    simp only [isBreak, Bool.not_eq_false, Bool.or_eq_true, beq_iff_eq] at h
    rcases h with rfl | rfl <;> exact absurd hcontrol (by decide)
  conv_lhs => unfold readDouble
  simp [hquote, hslash, hwhite, hbreak, hcontrol]

theorem readDouble_escape {s : List Char} (h : ∀ c ∈ s, isControl c = false)
    (white : List Char) : readDouble white 0 (escape s ++ ['"']) = some (white ++ s) := by
  induction s generalizing white with
  | nil => simpa [escape, fold] using readDouble_quote white 0
  | cons c s ih =>
      have hrest := ih fun d hd ↦ h d (List.mem_cons_of_mem _ hd)
      have hcontrol := h c List.mem_cons_self
      by_cases hesc : c = '\\' ∨ c = '"'
      · rw [escape, if_pos hesc, List.cons_append, List.cons_append, readDouble_escaped hesc,
          hrest]
        simp [fold]
      · rw [escape, if_neg hesc, List.cons_append]
        rw [not_or] at hesc
        cases hwhite : isWhite c with
        | true =>
            rw [readDouble_white hwhite, if_pos rfl, hrest]
            simp
        | false =>
            rw [readDouble_self hesc.2 hesc.1 hwhite hcontrol, hrest]
            simp [fold]

/-- How many line breaks a text holds. -/
def breakCount (s : List Char) : ℕ := s.countP isBreak

theorem breakCount_fold (n : ℕ) : breakCount (fold n) = n - 1 := by
  rcases n with _ | _ | n
  · rfl
  · rfl
  · simp [fold, breakCount, List.countP_replicate, isBreak]

theorem breakCount_cons (c : Char) (s : List Char) :
    breakCount (c :: s) = breakCount s + if isBreak c then 1 else 0 := by
  simp [breakCount, List.countP_cons]

/-- Folding loses one line break of every run, so a text with one never
reads back. The bound also covers the middle of a run. -/
theorem readDouble_breaks {s white out : List Char} {breaks : ℕ} (hwhite : breakCount white = 0)
    (h : readDouble white breaks (escape s ++ ['"']) = some out) :
    (breaks = 0 → breakCount s ≠ 0 → breakCount out < breakCount s) ∧
      breakCount out ≤ (breaks - 1) + breakCount s := by
  have hnil : breakCount [] = 0 := rfl
  have hfold := breakCount_fold breaks
  induction s generalizing white breaks out with
  | nil =>
      rw [show escape [] ++ ['"'] = ['"'] from rfl, readDouble_quote] at h
      obtain rfl := Option.some.inj h
      simp only [breakCount, List.countP_append, List.countP_nil] at *
      omega
  | cons c s ih =>
      have hshift : ∀ out', isBreak c = false →
          readDouble [] 0 (escape s ++ ['"']) = some out' → out = white ++ fold breaks ++ c :: out' →
          (breaks = 0 → breakCount (c :: s) ≠ 0 → breakCount out < breakCount (c :: s)) ∧
            breakCount out ≤ (breaks - 1) + breakCount (c :: s) := by
        rintro out' hc hout' rfl
        obtain ⟨hless, hle⟩ := ih hnil hout' (breakCount_fold 0)
        have hout : breakCount (white ++ fold breaks ++ c :: out') = breaks - 1 + breakCount out' := by
          simp only [breakCount, List.countP_append, List.countP_cons, hc] at hwhite hfold ⊢
          simp [hwhite, hfold]
        rw [hout, breakCount_cons, hc]
        simp only [Bool.false_eq_true, if_false, add_zero]
        constructor
        · rintro rfl hne
          simpa using hless rfl hne
        · omega
      by_cases hesc : c = '\\' ∨ c = '"'
      · rw [escape, if_pos hesc, List.cons_append, List.cons_append, readDouble_escaped hesc] at h
        obtain ⟨out', hout', rfl⟩ := Option.map_eq_some_iff.mp h
        exact hshift out' (by rcases hesc with rfl | rfl <;> decide) hout' rfl
      · rw [escape, if_neg hesc, List.cons_append] at h
        rw [not_or] at hesc
        cases hw : isWhite c with
        | true =>
            have hc : isBreak c = false := by
              simp only [isWhite, Bool.or_eq_true, beq_iff_eq] at hw
              rcases hw with rfl | rfl <;> decide
            rw [readDouble_white hw] at h
            rw [breakCount_cons, hc]
            by_cases hb : breaks = 0
            · subst hb
              rw [if_pos rfl] at h
              have hwhite' : breakCount (white ++ [c]) = 0 := by
                simpa [breakCount, hc] using hwhite
              simpa using ih hwhite' h hfold
            · rw [if_neg hb] at h
              simpa using ih hnil h hfold
        | false =>
            cases hc : isBreak c with
            | true =>
                rw [readDouble_break hc] at h
                have hih := (ih hnil h (breakCount_fold _)).2
                rw [breakCount_cons, hc]
                simp only [if_true]
                omega
            | false =>
                cases hcontrol : isControl c with
                | true =>
                    rw [readDouble_control hcontrol hc] at h
                    cases h
                | false =>
                    rw [readDouble_self hesc.2 hesc.1 hw hcontrol] at h
                    obtain ⟨out', hout', rfl⟩ := Option.map_eq_some_iff.mp h
                    exact hshift out' hc hout' rfl

theorem readDouble_eq_none {s : List Char} {c : Char} (hmem : c ∈ s)
    (hcontrol : isControl c = true) (hbreak : isBreak c = false) (white : List Char)
    (breaks : ℕ) : readDouble white breaks (escape s ++ ['"']) = none := by
  induction s generalizing white breaks with
  | nil => cases hmem
  | cons d s ih =>
      rcases List.mem_cons.mp hmem with rfl | hmem
      · have hesc : ¬ (c = '\\' ∨ c = '"') := by
          rintro (rfl | rfl) <;> exact absurd hcontrol (by decide)
        rw [escape, if_neg hesc, List.cons_append, readDouble_control hcontrol hbreak]
      · have hih := ih hmem
        by_cases hesc : d = '\\' ∨ d = '"'
        · rw [escape, if_pos hesc, List.cons_append, List.cons_append, readDouble_escaped hesc,
            hih]
          rfl
        · rw [escape, if_neg hesc, List.cons_append]
          rw [not_or] at hesc
          cases hw : isWhite d with
          | true =>
              rw [readDouble_white hw]
              split <;> exact hih _ _
          | false =>
              cases hb : isBreak d with
              | true =>
                  rw [readDouble_break hb]
                  exact hih _ _
              | false =>
                  cases hd : isControl d with
                  | true => exact readDouble_control hd hb _ _ _
                  | false =>
                      rw [readDouble_self hesc.2 hesc.1 hw hd, hih]
                      rfl

/-- An escaped text reads back exactly when it has no control character, the
tab apart. -/
theorem readDouble_escape_iff {s : List Char} :
    readDouble [] 0 (escape s ++ ['"']) = some s ↔ ∀ c ∈ s, isControl c = false := by
  constructor
  · intro h c hc
    by_contra hcontrol
    rw [Bool.not_eq_false] at hcontrol
    cases hbreak : isBreak c with
    | true =>
        have hcount : breakCount s ≠ 0 := by
          rw [breakCount, ne_eq, List.countP_eq_zero]
          intro hall
          exact hall c hc hbreak
        exact lt_irrefl _ ((readDouble_breaks rfl h).1 rfl hcount)
    | false =>
        rw [readDouble_eq_none hc hcontrol hbreak] at h
        cases h
  · intro h
    simpa using readDouble_escape h []

theorem length_fold_le (n : ℕ) : (fold n).length ≤ n := by
  rcases n with _ | _ | n <;> simp [fold]

/-- A quoted text is shorter than its token. -/
theorem length_readDouble {cs white out : List Char} {breaks : ℕ}
    (h : readDouble white breaks cs = some out) :
    out.length < white.length + breaks + cs.length := by
  have hfold := length_fold_le
  fun_induction readDouble white breaks cs generalizing out with
  | case1 => cases h
  | case2 white breaks =>
      obtain rfl := Option.some.inj h
      have := hfold breaks
      simp
      omega
  | case3 => cases h
  | case4 white c cs hquote hwhite ih =>
      have := ih h
      simp at this ⊢
      omega
  | case5 white breaks c cs hquote hwhite hbreaks ih =>
      have := ih h
      simp at this ⊢
      omega
  | case6 white breaks c cs hquote hwhite hbreak ih =>
      have := ih h
      simp at this ⊢
      omega
  | case7 => cases h
  | case8 => cases h
  | case9 white breaks cs d rest hesc hlen hquote hwhite hbreak hcontrol ih =>
      obtain ⟨out', hout', rfl⟩ := Option.map_eq_some_iff.mp h
      have := ih hout'
      have := hfold breaks
      simp at *
      omega
  | case10 white breaks c cs hquote hwhite hbreak hcontrol hslash ih =>
      obtain ⟨out', hout', rfl⟩ := Option.map_eq_some_iff.mp h
      have := ih hout'
      have := hfold breaks
      simp at *
      omega

theorem length_readSingle {cs out : List Char} (h : readSingle cs = some out) :
    out.length < cs.length := by
  fun_induction readSingle cs generalizing out with
  | case1 => cases h
  | case2 =>
      obtain rfl := Option.some.inj h
      simp
  | case3 cs ih =>
      obtain ⟨out', hout', rfl⟩ := Option.map_eq_some_iff.mp h
      have := ih hout'
      simp
      omega
  | case4 => cases h
  | case5 => cases h
  | case6 c cs _ _ _ _ ih =>
      obtain ⟨out', hout', rfl⟩ := Option.map_eq_some_iff.mp h
      have := ih hout'
      simp
      omega

/-! ## Tokens -/

def read (p : Place) (cs : List Char) : Option Scalar :=
  if p.implicitKey && (1024 < cs.length || cs.any isBreak) then none
  else
    match cs with
    | '"' :: rest => (readDouble [] 0 rest).map .str
    | '\'' :: rest => (readSingle rest).map .str
    | cs => if isPlain p cs then some (resolve cs) else none

theorem read_quoted (p : Place) (hp : p.implicitKey = false) (rest : List Char) :
    read p ('"' :: rest) = (readDouble [] 0 rest).map .str := by
  simp [read, hp]

theorem not_isPlain_indicator {p : Place} {c : Char} (hc : c ∈ INDICATORS)
    (hq : c ≠ '?') (hcolon : c ≠ ':') (hdash : c ≠ '-') (cs : List Char) :
    isPlain p (c :: cs) = false := by
  simp [isPlain, plainFirst, hc, hq, hcolon, hdash]

theorem read_of_isPlain {p : Place} {cs : List Char} (hp : p.implicitKey = false)
    (h : isPlain p cs = true) : read p cs = some (resolve cs) := by
  unfold read
  simp only [hp, Bool.false_and, Bool.false_eq_true, if_false]
  split
  · rw [not_isPlain_indicator (by decide) (by decide) (by decide) (by decide)] at h
    cases h
  · rw [not_isPlain_indicator (by decide) (by decide) (by decide) (by decide)] at h
    cases h
  · rw [if_pos h]

/-- What a text must be to stand for itself in its place. -/
def standsForItself (p : Place) (cs : List Char) : Bool :=
  !(p.implicitKey && (1024 < cs.length || cs.any isBreak)) && isPlain p cs &&
    resolve cs == .str cs

/-- Only a plain scalar can stand for itself: quotes are never part of what
they quote. -/
theorem read_eq_self_iff {p : Place} {cs : List Char} :
    read p cs = some (.str cs) ↔ standsForItself p cs = true := by
  unfold read standsForItself
  cases p.implicitKey && (decide (1024 < cs.length) || cs.any isBreak) with
  | true => simp
  | false =>
      simp only [Bool.false_eq_true, if_false, Bool.not_false, Bool.true_and,
        Bool.and_eq_true, beq_iff_eq]
      split
      · rename_i rest
        rw [not_isPlain_indicator (by decide) (by decide) (by decide) (by decide)]
        simp only [Bool.false_eq_true, false_and, iff_false]
        intro h
        obtain ⟨out, hout, heq⟩ := Option.map_eq_some_iff.mp h
        have hlen := length_readDouble hout
        obtain rfl := Scalar.str.inj heq
        simp at hlen
      · rename_i rest
        rw [not_isPlain_indicator (by decide) (by decide) (by decide) (by decide)]
        simp only [Bool.false_eq_true, false_and, iff_false]
        intro h
        obtain ⟨out, hout, heq⟩ := Option.map_eq_some_iff.mp h
        have hlen := length_readSingle hout
        obtain rfl := Scalar.str.inj heq
        simp at hlen
      · split <;> simp [*]

end Yaml
