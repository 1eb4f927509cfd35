import RemoteDevbox.Lib.Yaml.Block
import RemoteDevbox.Spec.YamlTokens

namespace RemoteDevbox.Spec.Layout

open Js Yaml

/-!
# The layout of an emitted document

Where the emitter puts each key, dash and scalar, and that a YAML reader
builds the same value from it.
-/

/-! ## Values and the trees they stand for -/

mutual

/-- Every key and every scalar reads back, wherever it stands. -/
def safe : Val → Bool
  | .arr xs => safeItems xs
  | .obj fs => safeFields fs
  | v => (Token.value true v).safe

def safeItems : List Val → Bool
  | [] => true
  | x :: xs => safe x && safeItems xs

def safeFields : List (String × Val) → Bool
  | [] => true
  | (k, v) :: rest => (v.isUndef || (Token.key true k).safe && safe v) && safeFields rest

end

mutual

/-- Entries that are `undefined` count as absent. -/
def treeOf : Val → Tree
  | .arr xs => .list (itemsOf xs)
  | .obj fs => .map (entriesOf fs)
  | v => .scalar ((asScalar v).getD .null)

def itemsOf : List Val → List Tree
  | [] => []
  | x :: xs => treeOf x :: itemsOf xs

def entriesOf : List (String × Val) → List (Scalar × Tree)
  | [] => []
  | (k, v) :: rest =>
      if v.isUndef then entriesOf rest else (.str k.toList, treeOf v) :: entriesOf rest

end

def scalarText (v : Val) : List Char :=
  match scalar v with
  | .ok text => text.toList
  | .error _ => []

mutual

/-- The heads of a value that starts in column `n`. -/
def placedNode (n : ℕ) : Val → List Placed
  | .arr [] => [(n, .leaf ['[', ']'])]
  | .arr (x :: xs) => placedItems n (x :: xs)
  | .obj fs => if fs.all fun p ↦ p.2.isUndef then [(n, .leaf ['{', '}'])] else placedEntries n fs
  | v => [(n, .leaf (scalarText v))]

def placedItems (n : ℕ) : List Val → List Placed
  | [] => []
  | x :: xs => (n, .dash) :: (placedNode (n + 2) x ++ placedItems n xs)

def placedEntries (n : ℕ) : List (String × Val) → List Placed
  | [] => []
  | (k, v) :: rest => placedEntry n k v ++ placedEntries n rest

def placedEntry (n : ℕ) (k : String) : Val → List Placed
  | .undef => []
  | .arr [] => [(n, .entry k.toList ['[', ']'])]
  | .arr (x :: xs) => (n, .entry k.toList []) :: placedItems (n + 2) (x :: xs)
  | .obj fs =>
      if fs.all fun p ↦ p.2.isUndef then [(n, .entry k.toList ['{', '}'])]
      else (n, .entry k.toList []) :: placedEntries (n + 2) fs
  | v => [(n, .entry k.toList (scalarText v))]

end

/-! ## Columns -/

mutual

theorem column_placedNode (n : ℕ) (v : Val) : ∀ q ∈ placedNode n v, n ≤ q.1 := by
  cases v with
  | arr xs =>
      cases xs with
      | nil => simp [placedNode]
      | cons x xs =>
          rw [placedNode]
          exact column_placedItems n (x :: xs)
  | obj fs =>
      rw [placedNode]
      split
      · simp
      · exact column_placedEntries n fs
  | _ => simp [placedNode]

theorem column_placedItems (n : ℕ) (xs : List Val) : ∀ q ∈ placedItems n xs, n ≤ q.1 := by
  cases xs with
  | nil => exact fun q hq ↦ absurd hq List.not_mem_nil
  | cons x xs =>
      rw [placedItems, List.forall_mem_cons, List.forall_mem_append]
      refine ⟨le_refl n, fun q hq ↦ ?_, column_placedItems n xs⟩
      have := column_placedNode (n + 2) x q hq
      omega

theorem column_placedEntries (n : ℕ) (fs : List (String × Val)) :
    ∀ q ∈ placedEntries n fs, n ≤ q.1 := by
  cases fs with
  | nil => exact fun q hq ↦ absurd hq List.not_mem_nil
  | cons p rest =>
      obtain ⟨k, v⟩ := p
      rw [placedEntries, List.forall_mem_append]
      exact ⟨column_placedEntry n k v, column_placedEntries n rest⟩

theorem column_placedEntry (n : ℕ) (k : String) (v : Val) :
    ∀ q ∈ placedEntry n k v, n ≤ q.1 := by
  have hdeeper : ∀ {l : List Placed}, (∀ q ∈ l, n + 2 ≤ q.1) → ∀ q ∈ l, n ≤ q.1 := by
    intro l hl q hq
    have := hl q hq
    omega
  cases v with
  | arr xs =>
      cases xs with
      | nil => simp [placedEntry]
      | cons x xs =>
          rw [placedEntry, List.forall_mem_cons]
          exact ⟨le_refl n, hdeeper (column_placedItems (n + 2) (x :: xs))⟩
  | obj fs =>
      rw [placedEntry]
      split
      · simp
      · rw [List.forall_mem_cons]
        exact ⟨le_refl n, hdeeper (column_placedEntries (n + 2) fs)⟩
  | _ => simp [placedEntry]

end

theorem underDash_of_deeper {n : ℕ} {l : List Placed} (h : ∀ q ∈ l, n + 2 ≤ q.1) :
    ∀ q ∈ l, underDash n q = true := by
  intro q hq
  have := h q hq
  rw [underDash, decide_eq_true_eq]
  omega

theorem underKey_of_deeper {n : ℕ} {l : List Placed} (h : ∀ q ∈ l, n + 2 ≤ q.1) :
    ∀ q ∈ l, underKey n q = true := by
  intro q hq
  rw [underKey, Bool.or_eq_true]
  exact .inl (underDash_of_deeper h q hq)

theorem next_placedItems (n : ℕ) (xs : List Val) :
    ∀ q ∈ (placedItems n xs).head?, underDash n q = false := by
  cases xs with
  | nil => simp [placedItems]
  | cons x xs => simp [placedItems, underDash]

theorem next_placedEntries (n : ℕ) (fs : List (String × Val)) :
    ∀ q ∈ (placedEntries n fs).head?, underKey n q = false := by
  induction fs with
  | nil => simp [placedEntries]
  | cons p rest ih =>
      obtain ⟨k, v⟩ := p
      have hkey : ∀ value, underKey n (n, .entry k.toList value) = false := by
        intro value
        simp [underKey]
      cases v with
      | undef => simpa [placedEntries, placedEntry] using ih
      | arr xs => cases xs <;> simp [placedEntries, placedEntry, hkey]
      | obj gs =>
          rw [placedEntries, placedEntry]
          split <;> simp [hkey]
      | _ => simp [placedEntries, placedEntry, hkey]

/-! ## Tokens -/

section Tokens

variable {v : Val}

theorem value_safe (b : Bool) (h : (Token.value true v).safe = true) :
    (Token.value b v).safe = true := by
  cases v with
  | str s =>
      simp only [Token.safe] at h ⊢
      split at h
      · rename_i hquote
        rw [if_pos hquote]
        exact h
      · rename_i hquote
        rw [if_neg hquote]
        simp only [misreadPlain, Bool.not_eq_true', Bool.or_eq_false_iff, Bool.and_eq_false_iff] at h ⊢
        cases b <;> simp_all
  | _ => exact h

theorem scalar_reads (h : (Token.value true v).safe = true) (b : Bool) :
    ∃ s, asScalar v = some s ∧ read ⟨b, none, false⟩ (scalarText v) = some s := by
  obtain ⟨text, s, htext, hs, hread⟩ := (token_readsBack_iff _).mpr (value_safe b h)
  refine ⟨s, hs, ?_⟩
  have hscalar : scalarText v = text.toList := by
    rw [scalarText, show scalar v = .ok text from htext]
  rw [hscalar]
  exact hread

theorem scalarText_ne (h : (Token.value true v).safe = true) {cs : List Char}
    (hcs : Yaml.read ⟨false, none, false⟩ cs = none) : scalarText v ≠ cs := by
  obtain ⟨s, _, hread⟩ := scalar_reads h false
  rintro rfl
  rw [hcs] at hread
  cases hread

theorem leaf_reads (h : (Token.value true v).safe = true) (b : Bool) :
    readLeaf b (scalarText v) = some (.scalar ((asScalar v).getD .null)) := by
  obtain ⟨s, hs, hread⟩ := scalar_reads h b
  rw [readLeaf, if_neg (scalarText_ne h (by decide)), if_neg (scalarText_ne h (by decide)), hread,
    hs]
  rfl

theorem key_reads {k : String} (h : (Token.key true k).safe = true) (b : Bool) :
    read ⟨b, some ':', true⟩ k.toList = some (.str k.toList) := by
  rw [read_eq_self_iff]
  simp only [Token.safe, standsForItself, Bool.and_eq_true] at h ⊢
  refine ⟨⟨h.1.1, ?_⟩, h.2⟩
  have hplain := h.1.2
  cases hk : k.toList with
  | nil =>
      rw [hk] at hplain
      cases hplain
  | cons c cs =>
      rw [hk] at hplain
      simp only [isPlain, Bool.and_eq_true] at hplain ⊢
      refine ⟨hplain.1, ?_⟩
      cases b with
      | false => rfl
      | true => exact hplain.2

end Tokens

/-! ## The reader rebuilds the value -/

section Rebuilt

theorem entriesOf_eq_nil {fs : List (String × Val)} (h : (fs.all fun p ↦ p.2.isUndef) = true) :
    entriesOf fs = [] := by
  induction fs with
  | nil => rfl
  | cons p rest ih =>
      obtain ⟨k, v⟩ := p
      rw [List.all_cons, Bool.and_eq_true] at h
      rw [entriesOf, if_pos h.1, ih h.2]

theorem scalar_line (n : ℕ) (k : String) (v : Val) (h : (Token.value true v).safe = true) :
    ∃ value, value ≠ [] ∧ [(n, Head.entry k.toList (scalarText v))] = [(n, .entry k.toList value)] ∧
      readLeaf false value = some (.scalar ((asScalar v).getD .null)) :=
  ⟨_, scalarText_ne h (by decide), rfl, leaf_reads h false⟩

/-- A value fits on the line of its key, or is a block below it. -/
theorem placedEntry_cases (n : ℕ) (k : String) {v : Val} (h : safe v = true)
    (hv : v.isUndef = false) :
    (∃ value, value ≠ [] ∧ placedEntry n k v = [(n, .entry k.toList value)] ∧
        readLeaf false value = some (treeOf v)) ∨
      placedEntry n k v = (n, .entry k.toList []) :: placedNode (n + 2) v := by
  cases v with
  | undef => cases hv
  | arr xs =>
      cases xs with
      | nil => exact .inl ⟨_, List.cons_ne_nil _ _, rfl, rfl⟩
      | cons x xs => exact .inr rfl
  | obj fs =>
      rw [placedEntry, placedNode]
      split
      · rename_i hnone
        refine .inl ⟨_, List.cons_ne_nil _ _, rfl, ?_⟩
        rw [treeOf, entriesOf_eq_nil hnone]
        rfl
      · exact .inr rfl
  | null => exact .inl (scalar_line n k .null h)
  | bool b => exact .inl (scalar_line n k (.bool b) h)
  | num m => exact .inl (scalar_line n k (.num m) h)
  | str s => exact .inl (scalar_line n k (.str s) h)
  | fn name => cases h

theorem placedEntries_cons {n : ℕ} {fs : List (String × Val)}
    (h : ¬(fs.all fun p ↦ p.2.isUndef) = true) :
    ∃ k value rest, placedEntries n fs = (n, .entry k value) :: rest := by
  induction fs with
  | nil => exact absurd rfl h
  | cons p rest ih =>
      obtain ⟨k, v⟩ := p
      cases v with
      | undef => exact ih (by simpa [Val.isUndef] using h)
      | arr xs => cases xs <;> exact ⟨_, _, _, rfl⟩
      | obj gs =>
          rw [placedEntries, placedEntry]
          split <;> exact ⟨_, _, _, rfl⟩
      | _ => exact ⟨_, _, _, rfl⟩

mutual

theorem readNode_placed (n : ℕ) (v : Val) (h : safe v = true) (fuel : ℕ)
    (hfuel : 2 * (placedNode n v).length + 1 ≤ fuel) :
    readNode fuel (placedNode n v) = some (treeOf v) := by
  obtain ⟨fuel, rfl⟩ : ∃ m, fuel = m + 1 := ⟨fuel - 1, by omega⟩
  cases v with
  | arr xs =>
      cases xs with
      | nil => cases n <;> rfl
      | cons x xs =>
          rw [placedNode] at hfuel ⊢
          have hitems := readItems_placed n (x :: xs) h fuel (by omega)
          rw [placedItems] at hitems ⊢
          rw [readNode, hitems]
          rfl
  | obj fs =>
      rw [placedNode] at hfuel ⊢
      split at hfuel
      · rename_i hnone
        rw [if_pos hnone, treeOf, entriesOf_eq_nil hnone]
        cases n <;> rfl
      · rename_i hsome
        rw [if_neg hsome]
        have hentries := readEntries_placed n fs h fuel (by omega)
        obtain ⟨k, value, rest, hcons⟩ := placedEntries_cons hsome
        rw [hcons] at hentries ⊢
        rw [readNode, hentries]
        rfl
  | undef => cases h
  | null => exact (readNode_leaf fuel n _).trans (leaf_reads (v := .null) h _)
  | bool b => exact (readNode_leaf fuel n _).trans (leaf_reads (v := .bool b) h _)
  | num m => exact (readNode_leaf fuel n _).trans (leaf_reads (v := .num m) h _)
  | str s => exact (readNode_leaf fuel n _).trans (leaf_reads (v := .str s) h _)
  | fn name => cases h

theorem readItems_placed (n : ℕ) (xs : List Val) (h : safeItems xs = true) (fuel : ℕ)
    (hfuel : 2 * (placedItems n xs).length ≤ fuel) :
    readItems fuel n (placedItems n xs) = some (itemsOf xs) := by
  cases xs with
  | nil => cases fuel <;> rfl
  | cons x xs =>
      rw [safeItems, Bool.and_eq_true] at h
      simp only [placedItems, List.length_cons, List.length_append] at hfuel ⊢
      obtain ⟨fuel, rfl⟩ : ∃ m, fuel = m + 1 := ⟨fuel - 1, by omega⟩
      exact readItems_cons (underDash_of_deeper (column_placedNode (n + 2) x))
        (next_placedItems n xs) (readNode_placed (n + 2) x h.1 fuel (by omega))
        (readItems_placed n xs h.2 fuel (by omega))

theorem readEntries_placed (n : ℕ) (fs : List (String × Val)) (h : safeFields fs = true) (fuel : ℕ)
    (hfuel : 2 * (placedEntries n fs).length ≤ fuel) :
    readEntries fuel n (placedEntries n fs) = some (entriesOf fs) := by
  cases fs with
  | nil => cases fuel <;> rfl
  | cons p rest =>
      obtain ⟨k, v⟩ := p
      rw [safeFields, Bool.and_eq_true] at h
      rw [placedEntries, List.length_append] at hfuel
      rw [placedEntries, entriesOf]
      cases hv : v.isUndef with
      | true =>
          have hnone : placedEntry n k v = [] := by
            cases v with
            | undef => rfl
            | _ => cases hv
          rw [hnone, if_pos rfl]
          exact readEntries_placed n rest h.2 fuel (by omega)
      | false =>
          rw [hv, Bool.false_or, Bool.and_eq_true] at h
          obtain ⟨⟨hkey, hsafe⟩, hrest⟩ := h
          rw [if_neg Bool.false_ne_true]
          rcases placedEntry_cases n k hsafe hv with ⟨value, hvalue, hplaced, hleaf⟩ | hplaced
          · rw [hplaced] at hfuel ⊢
            obtain ⟨fuel, rfl⟩ : ∃ m, fuel = m + 1 := ⟨fuel - 1, by simp at hfuel; omega⟩
            exact readEntries_value (next_placedEntries n rest) hvalue (key_reads hkey _) hleaf
              (readEntries_placed n rest hrest fuel (by simp at hfuel; omega))
          · rw [hplaced, List.length_cons] at hfuel
            rw [hplaced, List.cons_append]
            obtain ⟨fuel, rfl⟩ : ∃ m, fuel = m + 1 := ⟨fuel - 1, by omega⟩
            exact readEntries_cons (underKey_of_deeper (column_placedNode (n + 2) v))
              (next_placedEntries n rest) (key_reads hkey _)
              (readNode_placed (n + 2) v hsafe fuel (by omega))
              (readEntries_placed n rest hrest fuel (by omega))

end

end Rebuilt

/-! ## The emitter writes this layout -/

section Emitted

def spaces (n : ℕ) : String := String.ofList (List.replicate n ' ')

theorem toList_spaces (n : ℕ) : (spaces n).toList = List.replicate n ' ' := String.toList_ofList

theorem spaces_add (n m : ℕ) : spaces n ++ spaces m = spaces (n + m) := by
  rw [← String.toList_inj, String.toList_append, toList_spaces, toList_spaces, toList_spaces,
    List.replicate_add]

theorem spaces_length (n : ℕ) : (spaces n).length = n := by
  rw [← String.length_toList, toList_spaces, List.length_replicate]

/-- Lines that are indented by `n` at least and hold these heads. -/
structure Laid (n : ℕ) (lines : List String) (placed : List Placed) : Prop where
  holds : lines.flatMap (fun line ↦ heads 0 line.toList) = placed
  opens : ∀ line ∈ lines, ∃ body, line = spaces n ++ body
  single : ∀ line ∈ lines, '\n' ∉ line.toList

theorem Laid.nil (n : ℕ) : Laid n [] [] :=
  ⟨rfl, fun _ h ↦ absurd h List.not_mem_nil, fun _ h ↦ absurd h List.not_mem_nil⟩

theorem Laid.append {n : ℕ} {lines lines' : List String} {placed placed' : List Placed}
    (h : Laid n lines placed) (h' : Laid n lines' placed') :
    Laid n (lines ++ lines') (placed ++ placed') := by
  refine ⟨by rw [List.flatMap_append, h.holds, h'.holds], ?_, ?_⟩
  · exact List.forall_mem_append.mpr ⟨h.opens, h'.opens⟩
  · exact List.forall_mem_append.mpr ⟨h.single, h'.single⟩

theorem Laid.outdent {n m : ℕ} {lines : List String} {placed : List Placed}
    (h : Laid (n + m) lines placed) : Laid n lines placed := by
  refine ⟨h.holds, fun line hline ↦ ?_, h.single⟩
  obtain ⟨body, rfl⟩ := h.opens line hline
  exact ⟨spaces m ++ body, by rw [← String.append_assoc, spaces_add]⟩

/-- One line. -/
theorem laid_line {n : ℕ} {body : String} {placed : List Placed} (h : heads n body.toList = placed)
    (hsingle : '\n' ∉ body.toList) : Laid n [spaces n ++ body] placed := by
  have htext : (spaces n ++ body).toList = List.replicate n ' ' ++ body.toList := by
    rw [String.toList_append, toList_spaces]
  refine ⟨?_, List.forall_mem_singleton.mpr ⟨body, rfl⟩, List.forall_mem_singleton.mpr ?_⟩
  · rw [List.flatMap_singleton, htext, heads_spaces, Nat.zero_add, h]
  · rw [htext, List.mem_append, not_or]
    refine ⟨fun hmem ↦ ?_, hsingle⟩
    exact absurd (List.eq_of_mem_replicate hmem) (by decide)

theorem Laid.cons {n : ℕ} {line : String} {lines : List String} {here placed : List Placed}
    (h : Laid n [line] here) (hlines : Laid n lines placed) :
    Laid n (line :: lines) (here ++ placed) := h.append hlines

/-- The first line of a block moves onto the dash. -/
theorem Laid.hoist {n : ℕ} {lines : List String} {placed : List Placed}
    (h : Laid (n + 2) lines placed) (hne : placed ≠ []) :
    Laid n (Spec.hoist (spaces n) lines) ((n, .dash) :: placed) := by
  cases lines with
  | nil => exact absurd h.holds.symm hne
  | cons first rest =>
      obtain ⟨body, rfl⟩ := h.opens first List.mem_cons_self
      have hslice : sliceFrom ((spaces n).length + 2) (spaces (n + 2) ++ body) = body := by
        have hlength : (spaces n).length + 2 = (spaces (n + 2)).length := by
          rw [spaces_length, spaces_length]
        rw [hlength, sliceFrom_append]
      have hfirst : '\n' ∉ (spaces (n + 2) ++ body).toList := h.single _ List.mem_cons_self
      have hheads : heads 0 (spaces (n + 2) ++ body).toList = heads (n + 2) body.toList := by
        rw [String.toList_append, toList_spaces, heads_spaces, Nat.zero_add]
      have hline : Laid n [spaces n ++ ("- " ++ body)] ((n, .dash) :: heads (n + 2) body.toList) := by
        refine laid_line (by rw [String.toList_append]; exact heads_dash n _) ?_
        rw [String.toList_append, List.mem_append, not_or] at hfirst ⊢
        exact ⟨by decide, hfirst.2⟩
      have hrest : Laid n rest (rest.flatMap fun line ↦ heads 0 line.toList) :=
        Laid.outdent (m := 2) ⟨rfl, fun line hl ↦ h.opens line (List.mem_cons_of_mem _ hl),
          fun line hl ↦ h.single line (List.mem_cons_of_mem _ hl)⟩
      have hholds := h.holds
      rw [List.flatMap_cons, hheads] at hholds
      rw [Spec.hoist, hslice, String.append_assoc, ← hholds]
      exact hline.cons hrest

/-! No token holds a line break. -/

theorem single_guarded {cs : List Char} (h : ∀ c ∈ cs, isControl c = false) :
    '\n' ∉ guarded cs := by
  induction cs with
  | nil => exact List.not_mem_nil
  | cons c cs ih =>
      obtain ⟨hc, hcs⟩ := List.forall_mem_cons.mp h
      have hne : '\n' ≠ c := by
        rintro rfl
        exact absurd hc (by decide)
      rw [guarded]
      split
      · simp [hne, ih hcs]
      · simp [hne, ih hcs]

theorem single_scalar {v : Val} (h : (Token.value true v).safe = true) : '\n' ∉ scalarText v := by
  cases v with
  | null => decide
  | bool b => cases b <;> decide
  | num m =>
      cases m with
      | fin d =>
          intro hmem
          have hmem' : '\n' ∈ (Number.fin d).text := by
            simpa [scalarText, scalar, Number.toStr] using hmem
          exact absurd (Number.isNumeralChar_text d _ hmem') (by decide)
      | _ => cases h
  | str s =>
      simp only [Token.safe] at h
      split at h
      · rename_i hquote
        have hall : ∀ c ∈ s.toList, isControl c = false := fun c hc ↦ by
          simpa using List.all_eq_true.mp h c hc
        simp [scalarText, scalar, hquote, quoted, single_guarded hall]
      · rename_i hquote
        rw [Bool.not_eq_true] at hquote
        have hplain := (needsQuote_eq_false hquote).2.1
        intro hmem
        have hmem' : '\n' ∈ s.toList := by simpa [scalarText, scalar, hquote] using hmem
        exact absurd (hplain _ hmem') (by decide)
  | _ => cases h

theorem single_key {k : String} (h : (Token.key true k).safe = true) : '\n' ∉ k.toList := by
  simp only [Token.safe, standsForItself, Bool.and_eq_true, Bool.true_and, Bool.not_eq_true',
    Bool.or_eq_false_iff] at h
  intro hmem
  have hbreak := List.any_eq_false.mp h.1.1.2 _ hmem
  exact hbreak (by decide)

theorem scalar_eq {v : Val} (h : (Token.value true v).safe = true) :
    scalar v = .ok (String.ofList (scalarText v)) := by
  obtain ⟨text, s, htext, _⟩ := (token_readsBack_iff _).mpr h
  have hscalar : scalar v = .ok text := htext
  rw [scalarText, hscalar]
  exact congrArg Except.ok (String.ofList_toList).symm

/-- The line of a key with a value beside it. -/
theorem laid_value {n : ℕ} {k : String} (hk : (Token.key true k).safe = true) {text : String}
    (htext : (' ' :: text.toList).dropWhile isWhite = text.toList) (hsingle : '\n' ∉ text.toList) :
    Laid n [spaces n ++ k ++ ": " ++ text] [(n, .entry k.toList text.toList)] := by
  have hplain : isPlain ⟨true, some ':', true⟩ k.toList = true := by
    simp only [Token.safe, standsForItself, Bool.and_eq_true] at hk
    exact hk.1.2
  have hbody : (k ++ (": " ++ text)).toList = k.toList ++ ':' :: ' ' :: text.toList := by
    rw [String.toList_append, String.toList_append]
    rfl
  rw [String.append_assoc, String.append_assoc]
  refine laid_line ?_ ?_
  · rw [hbody, heads_entry hplain (by rfl), htext]
  · rw [hbody, List.mem_append, not_or]
    refine ⟨single_key hk, ?_⟩
    simpa using hsingle

/-- The line of a key whose value is a block. -/
theorem laid_key {n : ℕ} {k : String} (hk : (Token.key true k).safe = true) :
    Laid n [spaces n ++ k ++ ":"] [(n, .entry k.toList [])] := by
  have hplain : isPlain ⟨true, some ':', true⟩ k.toList = true := by
    simp only [Token.safe, standsForItself, Bool.and_eq_true] at hk
    exact hk.1.2
  have hbody : (k ++ ":").toList = k.toList ++ [':'] := String.toList_append
  rw [String.append_assoc]
  refine laid_line ?_ ?_
  · rw [hbody, heads_entry hplain (by rfl)]
    rfl
  · rw [hbody, List.mem_append, not_or]
    exact ⟨single_key hk, by decide⟩

theorem spaces_two (n : ℕ) : spaces n ++ "  " = spaces (n + 2) := spaces_add n 2

theorem emitEntries_none (pad : String) {fs : List (String × Val)}
    (h : (fs.all fun p ↦ p.2.isUndef) = true) : emitEntries pad fs = .ok [] := by
  induction fs with
  | nil => rfl
  | cons p rest ih =>
      obtain ⟨k, v⟩ := p
      rw [List.all_cons, Bool.and_eq_true] at h
      cases v with
      | undef => rw [emitEntries, emitEntry, ih h.2]; rfl
      | _ => cases h.1

theorem laid_scalar (n : ℕ) {k : String} (hk : (Token.key true k).safe = true) {v : Val}
    (h : (Token.value true v).safe = true) :
    Laid n [spaces n ++ k ++ ": " ++ String.ofList (scalarText v)]
      [(n, .entry k.toList (scalarText v))] := by
  obtain ⟨s, _, hread⟩ := scalar_reads h false
  have hline := @laid_value n k hk (String.ofList (scalarText v))
  rw [String.toList_ofList] at hline
  exact hline (white_before hread) (single_scalar h)

theorem laid_dashed (n : ℕ) {text : List Char} (hheads : heads (n + 2) text = [(n + 2, .leaf text)])
    (hsingle : '\n' ∉ text) :
    Laid n [spaces n ++ "- " ++ String.ofList text] [(n, .dash), (n + 2, .leaf text)] := by
  have hbody : ("- " ++ String.ofList text).toList = '-' :: ' ' :: text := by
    rw [String.toList_append, String.toList_ofList, String.toList_ofList]
    rfl
  rw [String.append_assoc]
  refine laid_line ?_ ?_
  · rw [hbody, heads_dash, hheads]
  · rw [hbody]
    simpa using hsingle

theorem scalarEntry_laid (n : ℕ) (k : String) (v : Val)
    (h : ((Token.key true k).safe && (Token.value true v).safe) = true) :
    ∃ lines, emitEntry (spaces n) k v = .ok lines ∧ Laid n lines (placedEntry n k v) := by
  obtain ⟨hk, hv⟩ := (Bool.and_eq_true _ _).mp h
  have hemit : emitEntry (spaces n) k v =
      scalar v >>= fun text ↦ pure [spaces n ++ k ++ ": " ++ text] := by
    cases v <;> first | rfl | cases hv
  have hplaced : placedEntry n k v = [(n, .entry k.toList (scalarText v))] := by
    cases v <;> first | rfl | cases hv
  rw [hemit, hplaced, scalar_eq hv]
  exact ⟨_, rfl, laid_scalar n hk hv⟩

theorem scalarItem_laid (n : ℕ) (v : Val) (h : (Token.value true v).safe = true) :
    ∃ lines, emitItem (spaces n) v = .ok lines ∧
      Laid n lines ((n, .dash) :: placedNode (n + 2) v) := by
  have hemit : emitItem (spaces n) v =
      scalar v >>= fun text ↦ pure [spaces n ++ "- " ++ text] := by
    cases v <;> first | rfl | cases h
  have hplaced : placedNode (n + 2) v = [(n + 2, .leaf (scalarText v))] := by
    cases v <;> first | rfl | cases h
  obtain ⟨s, _, hread⟩ := scalar_reads h false
  rw [hemit, hplaced, scalar_eq h]
  exact ⟨_, rfl, laid_dashed n (heads_leaf hread _) (single_scalar h)⟩

mutual

theorem emitEntries_laid (n : ℕ) (fs : List (String × Val)) (h : safeFields fs = true) :
    ∃ lines, emitEntries (spaces n) fs = .ok lines ∧ Laid n lines (placedEntries n fs) := by
  cases fs with
  | nil => exact ⟨[], rfl, Laid.nil n⟩
  | cons p rest =>
      obtain ⟨k, v⟩ := p
      rw [safeFields, Bool.and_eq_true] at h
      obtain ⟨more, hmore, hlaid⟩ := emitEntries_laid n rest h.2
      obtain ⟨here, hhere, hline⟩ := emitEntry_laid n k v h.1
      exact ⟨here ++ more, by rw [emitEntries, hhere, hmore]; rfl, hline.append hlaid⟩

theorem emitEntry_laid (n : ℕ) (k : String) (v : Val)
    (h : (v.isUndef || (Token.key true k).safe && safe v) = true) :
    ∃ lines, emitEntry (spaces n) k v = .ok lines ∧ Laid n lines (placedEntry n k v) := by
  cases v with
  | undef => exact ⟨[], rfl, Laid.nil n⟩
  | arr xs =>
      obtain ⟨hk, hxs⟩ := (Bool.and_eq_true _ _).mp h
      cases xs with
      | nil =>
          have hline := @laid_value n k hk "[]" (by decide) (by decide)
          rw [String.append_assoc] at hline
          exact ⟨_, rfl, hline⟩
      | cons x xs =>
          obtain ⟨lines, hlines, hlaid⟩ := emitList_laid (n + 2) (x :: xs) hxs
          refine ⟨(spaces n ++ k ++ ":") :: lines, ?_, (laid_key hk).cons hlaid.outdent⟩
          rw [emitEntry, spaces_two, hlines]
          rfl
  | obj fs =>
      obtain ⟨hk, hfs⟩ := (Bool.and_eq_true _ _).mp h
      rw [emitEntry, placedEntry]
      split
      · have hline := @laid_value n k hk "{}" (by decide) (by decide)
        rw [String.append_assoc] at hline
        exact ⟨_, rfl, hline⟩
      · obtain ⟨lines, hlines, hlaid⟩ := emitEntries_laid (n + 2) fs hfs
        refine ⟨(spaces n ++ k ++ ":") :: lines, ?_, (laid_key hk).cons hlaid.outdent⟩
        rw [spaces_two, hlines]
        rfl
  | null => exact scalarEntry_laid n k .null h
  | bool b => exact scalarEntry_laid n k (.bool b) h
  | num m => exact scalarEntry_laid n k (.num m) h
  | str s => exact scalarEntry_laid n k (.str s) h
  | fn name => cases ((Bool.and_eq_true _ _).mp h).2

theorem emitList_laid (n : ℕ) (xs : List Val) (h : safeItems xs = true) :
    ∃ lines, emitList (spaces n) xs = .ok lines ∧ Laid n lines (placedItems n xs) := by
  cases xs with
  | nil => exact ⟨[], rfl, Laid.nil n⟩
  | cons x xs =>
      rw [safeItems, Bool.and_eq_true] at h
      obtain ⟨more, hmore, hlaid⟩ := emitList_laid n xs h.2
      obtain ⟨here, hhere, hline⟩ := emitItem_laid n x h.1
      exact ⟨here ++ more, by rw [emitList, hhere, hmore]; rfl, hline.append hlaid⟩

theorem emitItem_laid (n : ℕ) (v : Val) (h : safe v = true) :
    ∃ lines, emitItem (spaces n) v = .ok lines ∧
      Laid n lines ((n, .dash) :: placedNode (n + 2) v) := by
  cases v with
  | undef => cases h
  | arr xs =>
      cases xs with
      | nil =>
          have hline := @laid_dashed n ['[', ']'] rfl (by decide)
          rw [String.append_assoc] at hline
          exact ⟨_, rfl, hline⟩
      | cons x xs =>
          obtain ⟨lines, hlines, hlaid⟩ := emitList_laid (n + 2) (x :: xs) h
          refine ⟨(spaces n ++ "-") :: lines, ?_, ?_⟩
          · rw [emitItem, spaces_two, hlines]
            rfl
          · exact (@laid_line n "-" _ (heads_lone_dash n) (by decide)).cons hlaid.outdent
  | obj fs =>
      rw [emitItem, placedNode, spaces_two]
      split
      · rename_i hnone
        rw [emitEntries_none _ hnone]
        have hline := @laid_dashed n ['{', '}'] rfl (by decide)
        rw [String.append_assoc] at hline
        exact ⟨_, rfl, hline⟩
      · rename_i hsome
        obtain ⟨lines, hlines, hlaid⟩ := emitEntries_laid (n + 2) fs h
        obtain ⟨k, value, rest, hcons⟩ := @placedEntries_cons (n + 2) fs hsome
        refine ⟨hoist (spaces n) lines, by rw [hlines]; rfl, hlaid.hoist ?_⟩
        rw [hcons]
        exact List.cons_ne_nil _ _
  | null => exact scalarItem_laid n .null h
  | bool b => exact scalarItem_laid n (.bool b) h
  | num m => exact scalarItem_laid n (.num m) h
  | str s => exact scalarItem_laid n (.str s) h
  | fn name => cases h

end

end Emitted

/-! ## The whole document -/

/-- A list or a mapping without entries; on the outermost level it leaves no line. -/
def isEmpty : Val → Bool
  | .arr xs => xs.isEmpty
  | .obj fs => fs.all fun p ↦ p.2.isUndef
  | _ => false

theorem placedNode_ne_nil (n : ℕ) (v : Val) : placedNode n v ≠ [] := by
  cases v with
  | arr xs =>
      cases xs with
      | nil => exact List.cons_ne_nil _ _
      | cons x xs => exact List.cons_ne_nil _ _
  | obj fs =>
      rw [placedNode]
      split
      · exact List.cons_ne_nil _ _
      · rename_i hsome
        obtain ⟨k, value, rest, hcons⟩ := @placedEntries_cons n fs hsome
        rw [hcons]
        exact List.cons_ne_nil _ _
  | _ => exact List.cons_ne_nil _ _

theorem emitLines_empty {v : Val} (hv : isEmpty v = true) : emitLines v = .ok [] := by
  cases v with
  | arr xs =>
      obtain rfl := List.isEmpty_iff.mp hv
      rfl
  | obj fs => exact emitEntries_none "" hv
  | _ => cases hv

theorem scalarDocument_laid {v : Val} (h : (Token.value true v).safe = true) :
    ∃ lines, emitLines v = .ok lines ∧ Laid 0 lines (placedNode 0 v) := by
  have hemit : emitLines v = scalar v >>= fun text ↦ pure [text] := by
    cases v <;> first | rfl | cases h
  have hplaced : placedNode 0 v = [(0, .leaf (scalarText v))] := by
    cases v <;> first | rfl | cases h
  obtain ⟨s, _, hread⟩ := scalar_reads h false
  have hline := @laid_line 0 (String.ofList (scalarText v)) [(0, .leaf (scalarText v))]
  rw [String.toList_ofList, show spaces 0 = "" from rfl, String.empty_append] at hline
  rw [hemit, hplaced, scalar_eq h]
  exact ⟨_, rfl, hline (heads_leaf hread 0) (single_scalar h)⟩

theorem emitLines_laid {v : Val} (h : safe v = true) (hv : isEmpty v = false) :
    ∃ lines, emitLines v = .ok lines ∧ Laid 0 lines (placedNode 0 v) ∧ lines ≠ [] := by
  have hmost : ∃ lines, emitLines v = .ok lines ∧ Laid 0 lines (placedNode 0 v) := by
    cases v with
    | arr xs =>
        cases xs with
        | nil => cases hv
        | cons x xs => exact emitList_laid 0 (x :: xs) h
    | obj fs =>
        have hsome : ¬(fs.all fun p ↦ p.2.isUndef) = true := (Bool.not_eq_true _).mpr hv
        rw [placedNode, if_neg hsome]
        exact emitEntries_laid 0 fs h
    | undef => cases h
    | null => exact scalarDocument_laid (v := .null) h
    | bool b => exact scalarDocument_laid (v := .bool b) h
    | num m => exact scalarDocument_laid (v := .num m) h
    | str s => exact scalarDocument_laid (v := .str s) h
    | fn name => cases h
  obtain ⟨lines, hlines, hlaid⟩ := hmost
  refine ⟨lines, hlines, hlaid, ?_⟩
  rintro rfl
  exact placedNode_ne_nil 0 v hlaid.holds.symm

theorem parse_lines {lines : List String} {placed : List Placed} (h : Laid 0 lines placed)
    (hne : lines ≠ []) : Yaml.parse ("\n".intercalate lines ++ "\n").toList =
      readNode (2 * placed.length + 1) placed := by
  have hsplit : ("\n".intercalate lines ++ "\n").toList.splitOn '\n' =
      lines.map String.toList ++ [[]] := by
    have hjoined : ("\n".intercalate lines ++ "\n").toList =
        ['\n'].intercalate (lines.map String.toList ++ [[]]) := by
      rw [intercalate_concat _ (by simpa using hne), List.append_nil, String.toList_append,
        String.toList_intercalate]
      rfl
    rw [hjoined]
    refine List.splitOn_intercalate _ (fun l hl ↦ ?_) (by simp)
    rcases List.mem_append.mp hl with hl | hl
    · obtain ⟨line, hline, rfl⟩ := List.mem_map.mp hl
      exact h.single line hline
    · rw [List.mem_singleton.mp hl]
      exact List.not_mem_nil
  have hplaced : (lines.map String.toList ++ [[]]).flatMap (heads 0) = placed := by
    rw [List.flatMap_append, List.flatMap_map]
    exact (List.append_nil _).trans h.holds
  rw [Yaml.parse, hsplit, hplaced]

/-- Of every value whose keys and scalars read back. -/
theorem layout_round_trip_iff {v : Val} (h : safe v = true) :
    (∃ text, toYaml v = .ok text ∧ Yaml.parse text.toList = some (treeOf v)) ↔
      isEmpty v = false := by
  constructor
  · rintro ⟨text, htext, hparse⟩
    rw [Bool.eq_false_iff]
    intro hv
    rw [toYaml, emitLines_empty hv] at htext
    obtain rfl := Except.ok.inj htext
    have hnull : Yaml.parse "".toList = some (.scalar .null) := rfl
    have hscalar : Tree.scalar .null = treeOf v := Option.some.inj (hnull.symm.trans hparse)
    cases v with
    | arr xs => cases hscalar
    | obj fs => cases hscalar
    | _ => cases hv
  · intro hv
    obtain ⟨lines, hlines, hlaid, hne⟩ := emitLines_laid h hv
    refine ⟨"\n".intercalate lines ++ "\n", ?_, ?_⟩
    · rw [toYaml, hlines]
      simp [hne]
    · rw [parse_lines hlaid hne]
      exact readNode_placed 0 v h _ (le_refl _)

theorem nested_round_trip : ∃ text,
    toYaml (.obj [("apps", .arr [.obj [("name", "web"), ("gone", .undef), ("ports", .arr [1, .arr []])],
      .arr [.arr ["a"]]]), ("env", .obj [("x", .undef)])]) = .ok text ∧
    Yaml.parse text.toList = some (.map [(.str "apps".toList,
      .list [.map [(.str "name".toList, .scalar (.str "web".toList)),
        (.str "ports".toList, .list [.scalar (.num (.ofInt 1)), .list []])],
        .list [.list [.scalar (.str "a".toList)]]]), (.str "env".toList, .map [])]) :=
  (layout_round_trip_iff (by decide +kernel)).mpr (by decide +kernel)

/-- An empty mapping on the outermost level is written as an empty document, which is null. -/
theorem empty_lost : toYaml (.obj []) = .ok "" ∧ Yaml.parse "".toList = some (.scalar .null) ∧
    treeOf (.obj []) = .map [] := ⟨rfl, rfl, rfl⟩

end RemoteDevbox.Spec.Layout
