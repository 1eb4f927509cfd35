import RemoteDevbox.Lib.Yaml.Scalar

namespace Yaml

/-!
# Block structure of YAML 1.2

Mappings and lists laid out by indentation, each key and each scalar on one
line. A text is first cut into heads: what follows a dash stands at its own
column, as if it were on a line of its own. What lies outside (flow
collections with elements, quoted keys, scalars over several lines, comments,
anchors and tags) is refused.
-/

inductive Tree where
  | scalar (s : Scalar)
  | list (items : List Tree)
  | map (entries : List (Scalar × Tree))

inductive Head where
  | dash
  | entry (key value : List Char)
  | leaf (text : List Char)
  deriving DecidableEq

/-- A head and its column. -/
abbrev Placed := ℕ × Head

/-! ## From lines to heads -/

/-- The key before the first colon that ends the line or has white space
after it, and the value. -/
def splitEntry : List Char → Option (List Char × List Char)
  | [] => none
  | c :: cs =>
      if c = ':' ∧ cs.head?.all isWhite then some ([], cs.dropWhile isWhite)
      else (splitEntry cs).map fun p ↦ (c :: p.1, p.2)

def classify (cs : List Char) : Head :=
  if cs.head? = some '"' ∨ cs.head? = some '\'' then .leaf cs
  else
    match splitEntry cs with
    | some (key, value) => .entry key value
    | none => .leaf cs

/-- The heads of a line from column `n` on. -/
def heads (n : ℕ) : List Char → List Placed
  | [] => []
  | c :: cs =>
      if c = ' ' then heads (n + 1) cs
      else if c = '-' ∧ cs.head?.all (· == ' ') then (n, .dash) :: heads (n + 1) cs
      else [(n, classify (c :: cs))]

/-! ## From heads to a tree -/

/-- A value on one line. -/
def readLeaf (lineStart : Bool) (cs : List Char) : Option Tree :=
  if cs = ['[', ']'] then some (.list [])
  else if cs = ['{', '}'] then some (.map [])
  else (read ⟨lineStart, none, false⟩ cs).map .scalar

/-- Part of the item whose dash is in column `n`. -/
def underDash (n : ℕ) (p : Placed) : Bool := n < p.1

/-- Part of the value of a key in column `n`; a list may start in the key's own column. -/
def underKey (n : ℕ) (p : Placed) : Bool := n < p.1 || p == (n, .dash)

mutual

/-- A node made of all these heads; without any it is null. -/
def readNode : ℕ → List Placed → Option Tree
  | _, [] => some (.scalar .null)
  | 0, _ :: _ => none
  | fuel + 1, (n, .dash) :: rest => (readItems fuel n ((n, .dash) :: rest)).map .list
  | fuel + 1, (n, .entry key value) :: rest =>
      (readEntries fuel n ((n, .entry key value) :: rest)).map .map
  | _ + 1, (n, .leaf text) :: rest => if rest.isEmpty then readLeaf (n == 0) text else none

/-- The items of a list in column `n`. -/
def readItems : ℕ → ℕ → List Placed → Option (List Tree)
  | _, _, [] => some []
  | fuel + 1, n, (m, .dash) :: rest =>
      if m = n then do
        let item ← readNode fuel (rest.takeWhile (underDash n))
        let items ← readItems fuel n (rest.dropWhile (underDash n))
        return item :: items
      else none
  | _, _, _ :: _ => none

/-- The entries of a mapping in column `n`. -/
def readEntries : ℕ → ℕ → List Placed → Option (List (Scalar × Tree))
  | _, _, [] => some []
  | fuel + 1, n, (m, .entry key value) :: rest =>
      if m = n then do
        let name ← read ⟨n == 0, some ':', true⟩ key
        let tree ← (if value.isEmpty then readNode fuel (rest.takeWhile (underKey n))
          else if (rest.takeWhile (underKey n)).isEmpty then readLeaf false value else none)
        let entries ← readEntries fuel n (rest.dropWhile (underKey n))
        return (name, tree) :: entries
      else none
  | _, _, _ :: _ => none

end

/-- The value of a document without markers. Each call below `readNode`
has fewer heads left, so the fuel is never spent. -/
def parse (text : List Char) : Option Tree :=
  let placed := (text.splitOn '\n').flatMap (heads 0)
  readNode (2 * placed.length + 1) placed

/-! ## Heads of a line that was laid out -/

section Heads

theorem heads_spaces (n m : ℕ) (cs : List Char) :
    heads n (List.replicate m ' ' ++ cs) = heads (n + m) cs := by
  induction m generalizing n with
  | zero => rfl
  | succ m ih =>
      have hcolumn : n + 1 + m = n + (m + 1) := by omega
      rw [List.replicate_succ, List.cons_append, heads, if_pos rfl, ih, hcolumn]

theorem heads_dash (n : ℕ) (cs : List Char) :
    heads n ('-' :: ' ' :: cs) = (n, .dash) :: heads (n + 2) cs := by
  rw [heads, if_neg (by decide), if_pos ⟨rfl, rfl⟩, heads, if_pos rfl]

theorem heads_lone_dash (n : ℕ) : heads n ['-'] = [(n, .dash)] := rfl

/-! A colon inside a plain scalar has something solid after it. -/

theorem not_white_of_solid {c : Char} (h : isSolid c = true) : isWhite c = false := by
  simp only [isSolid, Bool.and_eq_true, Bool.not_eq_true'] at h
  exact h.1.2

theorem plainFirst_colon {next : Option Char} (h : plainFirst ':' next = true) :
    next.any isSolid = true := by
  simpa [plainFirst, INDICATORS] using h

theorem plainInner_colon {prev : Char} {next : Option Char}
    (h : plainInner prev ':' next = true) : next.any isSolid = true := by
  simpa [plainInner, isWhite] using h

theorem splitEntry_cons {c : Char} {cs : List Char}
    (h : c = ':' → cs.head?.any isSolid = true) :
    splitEntry (c :: cs) = (splitEntry cs).map fun p ↦ (c :: p.1, p.2) := by
  rw [splitEntry, if_neg]
  rintro ⟨hcolon, hwhite⟩
  have hsolid := h hcolon
  cases hhead : cs.head? with
  | none =>
      rw [hhead] at hsolid
      cases hsolid
  | some d =>
      rw [hhead] at hsolid hwhite
      have hd : isWhite d = false := not_white_of_solid hsolid
      rw [Option.all_some, hd] at hwhite
      cases hwhite

theorem head?_append_or {cs rest : List Char} {follow : Option Char}
    (hfollow : rest.head? = follow) : (cs ++ rest).head? = (cs.head? <|> follow) := by
  cases cs <;> simp [hfollow]

theorem splitEntry_rest {follow : Option Char} {prev : Char} {cs rest : List Char}
    (h : plainRest follow prev cs = true) (hfollow : rest.head? = follow) :
    splitEntry (cs ++ rest) = (splitEntry rest).map fun p ↦ (cs ++ p.1, p.2) := by
  induction cs generalizing prev with
  | nil => simp
  | cons c cs ih =>
      rw [plainRest, Bool.and_eq_true] at h
      obtain ⟨hinner, hrest⟩ := h
      have hcolon : c = ':' → (cs ++ rest).head?.any isSolid = true := by
        rintro rfl
        rw [head?_append_or hfollow]
        exact plainInner_colon hinner
      rw [List.cons_append, splitEntry_cons hcolon, ih hrest, Option.map_map]
      rfl

theorem splitEntry_plain {p : Place} {cs rest : List Char} (h : isPlain p cs = true)
    (hfollow : rest.head? = p.follow) :
    splitEntry (cs ++ rest) = (splitEntry rest).map fun q ↦ (cs ++ q.1, q.2) := by
  cases cs with
  | nil => cases h
  | cons c cs =>
      simp only [isPlain, Bool.and_eq_true] at h
      have hcolon : c = ':' → (cs ++ rest).head?.any isSolid = true := by
        rintro rfl
        rw [head?_append_or hfollow]
        exact plainFirst_colon h.1.1
      rw [List.cons_append, splitEntry_cons hcolon, splitEntry_rest h.1.2 hfollow, Option.map_map]
      rfl

/-! ## Lines that hold one token or an entry -/

/-- What a plain scalar starts with. -/
theorem plain_start {p : Place} {cs : List Char} (h : isPlain p cs = true) :
    ∃ c tail, cs = c :: tail ∧ c ≠ ' ' ∧ isWhite c = false ∧ c ≠ '"' ∧ c ≠ '\'' ∧
      (c = '-' → (tail.head? <|> p.follow).any isSolid = true) := by
  cases cs with
  | nil => cases h
  | cons c tail =>
      simp only [isPlain, Bool.and_eq_true] at h
      have hnot : ∀ d ∈ [' ', '\t', '"', '\''], c ≠ d := by
        rintro d hd rfl
        have hfirst := h.1.1
        simp only [List.mem_cons, List.not_mem_nil, or_false] at hd
        rcases hd with rfl | rfl | rfl | rfl <;>
          simp [plainFirst, INDICATORS, isSolid, isWhite] at hfirst
      refine ⟨c, tail, rfl, hnot _ (by simp), ?_, hnot _ (by simp), hnot _ (by simp), ?_⟩
      · simp [isWhite, hnot ' ' (by simp), hnot '\t' (by simp)]
      · rintro rfl
        simpa [plainFirst, INDICATORS] using h.1.1

theorem heads_classify {n : ℕ} {c : Char} {cs : List Char} (hspace : c ≠ ' ')
    (hdash : c = '-' → cs.head?.any isSolid = true) :
    heads n (c :: cs) = [(n, classify (c :: cs))] := by
  rw [heads, if_neg hspace, if_neg]
  rintro ⟨hc, hall⟩
  have hsolid := hdash hc
  cases hhead : cs.head? with
  | none =>
      rw [hhead] at hsolid
      cases hsolid
  | some d =>
      rw [hhead] at hsolid hall
      obtain rfl : d = ' ' := beq_iff_eq.mp hall
      exact absurd hsolid (by decide)

theorem heads_leaf {b : Bool} {text : List Char} {s : Scalar}
    (h : read ⟨b, none, false⟩ text = some s) (n : ℕ) : heads n text = [(n, .leaf text)] := by
  unfold read at h
  simp only [Bool.false_and, Bool.false_eq_true, if_false] at h
  split at h
  · rename_i rest
    rw [heads_classify (by decide) (fun hdash ↦ absurd hdash (by decide)), classify,
      if_pos (.inl rfl)]
  · rename_i rest
    rw [heads_classify (by decide) (fun hdash ↦ absurd hdash (by decide)), classify,
      if_pos (.inr rfl)]
  · split at h
    · rename_i hplain
      obtain ⟨c, tail, rfl, hspace, _, hdouble, hsingle, hdash⟩ := plain_start hplain
      have hsplit := splitEntry_plain hplain (rfl : ([] : List Char).head? = none)
      rw [List.append_nil] at hsplit
      have hnext : c = '-' → tail.head?.any isSolid = true := fun hc ↦ by
        simpa using hdash hc
      rw [heads_classify hspace hnext, classify, if_neg (by simp [hdouble, hsingle]), hsplit]
      rfl
    · cases h

theorem white_before {b : Bool} {text : List Char} {s : Scalar}
    (h : read ⟨b, none, false⟩ text = some s) : (' ' :: text).dropWhile isWhite = text := by
  have hstart : ∀ c ∈ text.head?, isWhite c = false := by
    unfold read at h
    simp only [Bool.false_and, Bool.false_eq_true, if_false] at h
    split at h
    · rintro c ⟨⟩
      decide
    · rintro c ⟨⟩
      decide
    · split at h
      · rename_i hplain
        obtain ⟨c, tail, rfl, _, hwhite, _⟩ := plain_start hplain
        rintro d ⟨⟩
        exact hwhite
      · cases h
  rw [List.dropWhile_cons_of_pos (by decide)]
  cases text with
  | nil => rfl
  | cons c cs => rw [List.dropWhile_cons_of_neg (by rw [hstart c rfl]; decide)]

theorem heads_entry {b : Bool} {key : List Char} (h : isPlain ⟨b, some ':', true⟩ key = true)
    {rest : List Char} (hrest : rest.head?.all isWhite = true) (n : ℕ) :
    heads n (key ++ ':' :: rest) = [(n, .entry key (rest.dropWhile isWhite))] := by
  obtain ⟨c, tail, rfl, hspace, _, hdouble, hsingle, hdash⟩ := plain_start h
  have hsplit := splitEntry_plain h (rfl : (':' :: rest).head? = some ':')
  rw [splitEntry, if_pos ⟨rfl, hrest⟩] at hsplit
  have hnext : c = '-' → (tail ++ ':' :: rest).head?.any isSolid = true := fun hc ↦ by
    rw [head?_append_or rfl]
    exact hdash hc
  rw [List.cons_append, heads_classify hspace hnext, classify, if_neg (by simp [hdouble, hsingle]),
    ← List.cons_append, hsplit]
  simp

end Heads

/-! ## Blocks inside blocks -/

section Blocks

variable {fuel n : ℕ} {kids rest : List Placed}

theorem takeWhile_block {p : Placed → Bool} (hkids : ∀ q ∈ kids, p q = true)
    (hrest : ∀ q ∈ rest.head?, p q = false) : (kids ++ rest).takeWhile p = kids := by
  rw [List.takeWhile_append_of_pos hkids]
  cases rest with
  | nil => simp
  | cons q rest => simp [hrest q rfl]

theorem dropWhile_block {p : Placed → Bool} (hkids : ∀ q ∈ kids, p q = true)
    (hrest : ∀ q ∈ rest.head?, p q = false) : (kids ++ rest).dropWhile p = rest := by
  rw [List.dropWhile_append_of_pos hkids]
  cases rest with
  | nil => rfl
  | cons q rest => simp [hrest q rfl]

theorem readNode_leaf (fuel n : ℕ) (text : List Char) :
    readNode (fuel + 1) [(n, .leaf text)] = readLeaf (n == 0) text := by
  rw [readNode, List.isEmpty_nil, if_pos rfl]

theorem readItems_cons (hkids : ∀ q ∈ kids, underDash n q = true)
    (hrest : ∀ q ∈ rest.head?, underDash n q = false) {item : Tree} {items : List Tree}
    (hitem : readNode fuel kids = some item) (hitems : readItems fuel n rest = some items) :
    readItems (fuel + 1) n ((n, .dash) :: (kids ++ rest)) = some (item :: items) := by
  rw [readItems, if_pos rfl, takeWhile_block hkids hrest, dropWhile_block hkids hrest, hitem,
    hitems]
  rfl

theorem readEntries_cons (hkids : ∀ q ∈ kids, underKey n q = true)
    (hrest : ∀ q ∈ rest.head?, underKey n q = false) {key : List Char} {name : Scalar}
    {tree : Tree} {entries : List (Scalar × Tree)}
    (hname : read ⟨n == 0, some ':', true⟩ key = some name)
    (htree : readNode fuel kids = some tree) (hentries : readEntries fuel n rest = some entries) :
    readEntries (fuel + 1) n ((n, .entry key []) :: (kids ++ rest)) =
      some ((name, tree) :: entries) := by
  rw [readEntries, if_pos rfl, takeWhile_block hkids hrest, dropWhile_block hkids hrest, hname,
    List.isEmpty_nil, if_pos rfl, htree, hentries]
  rfl

theorem readEntries_value (hrest : ∀ q ∈ rest.head?, underKey n q = false)
    {key value : List Char} (hvalue : value ≠ []) {name : Scalar}
    {tree : Tree} {entries : List (Scalar × Tree)}
    (hname : read ⟨n == 0, some ':', true⟩ key = some name)
    (htree : readLeaf false value = some tree) (hentries : readEntries fuel n rest = some entries) :
    readEntries (fuel + 1) n ((n, .entry key value) :: rest) = some ((name, tree) :: entries) := by
  have hkids : ∀ q ∈ ([] : List Placed), underKey n q = true := fun q hq ↦ absurd hq List.not_mem_nil
  have htake := takeWhile_block hkids hrest
  have hdrop := dropWhile_block hkids hrest
  rw [List.nil_append] at htake hdrop
  rw [readEntries, if_pos rfl, htake, hdrop, hname]
  simp [hvalue, htree, hentries]

end Blocks

end Yaml
