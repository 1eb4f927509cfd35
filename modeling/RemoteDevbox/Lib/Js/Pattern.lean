import Mathlib.Data.List.Basic

namespace Js

/-!
# Patterns with groups and assertions

Matching tries all ways in the order of a backtracking engine: the first alternative
before the second, and another repetition before none. What a way consumes, and when
there is one, does not depend on that order.
-/

inductive Pattern where
  | eps
  | cls (p : Char → Bool)
  | seq (p q : Pattern)
  | alt (p q : Pattern)
  /-- `p*`, greedy; a repetition that consumes nothing is none. -/
  | star (p : Pattern)
  /-- `^`, of the whole text. -/
  | start
  /-- `$`, of the whole text. -/
  | finish
  /-- `(?=p)` -/
  | ahead (p : Pattern)

namespace Pattern

def chr (c : Char) : Pattern := cls (· == c)

def lit (w : List Char) : Pattern := w.foldr (fun c p ↦ seq (chr c) p) eps

def plus (p : Pattern) : Pattern := seq p (star p)

def opt (p : Pattern) : Pattern := alt p eps

/-- The first of the patterns, or one of the others. -/
def oneOf (p : Pattern) : List Pattern → Pattern
  | [] => p
  | q :: qs => alt p (oneOf q qs)

/-! ## Matching -/

/-- A way through a text: what it consumes, and what is left. -/
abbrev Way := List Char × List Char

def iterate (step : Bool → List Char → List Way) : ℕ → Bool → List Char → List Way
  | 0, _, s => [([], s)]
  | n + 1, first, s =>
      ((step first s).filter fun m ↦ !m.1.isEmpty).flatMap
        (fun m ↦ (iterate step n false m.2).map fun r ↦ (m.1 ++ r.1, r.2)) ++ [([], s)]

/-- All ways from a position, which may be the start of the text. -/
def ways : Pattern → Bool → List Char → List Way
  | eps, _, s => [([], s)]
  | cls _, _, [] => []
  | cls p, _, c :: s => if p c then [([c], s)] else []
  | seq p q, first, s =>
      (ways p first s).flatMap fun m ↦
        (ways q (first && m.1.isEmpty) m.2).map fun r ↦ (m.1 ++ r.1, r.2)
  | alt p q, first, s => ways p first s ++ ways q first s
  | star p, first, s => iterate (ways p) s.length first s
  | start, first, s => if first then [([], s)] else []
  | finish, _, s => if s.isEmpty then [([], s)] else []
  | ahead p, first, s => if (ways p first s).isEmpty then [] else [([], s)]

/-- The ways of some groups, one behind the other, with what each consumes. -/
def groupWays : List Pattern → Bool → List Char → List (List (List Char) × List Char)
  | [], _, s => [([], s)]
  | p :: ps, first, s =>
      (ways p first s).flatMap fun m ↦
        (groupWays ps (first && m.1.isEmpty) m.2).map fun r ↦ (m.1 :: r.1, r.2)

/-- The match at a position. -/
def exec (ps : List Pattern) (first : Bool) (s : List Char) :
    Option (List (List Char) × List Char) :=
  (groupWays ps first s).head?

/-- The text from a position on with all matches replaced; the first argument counts
the letters of the last match. -/
def replaceFrom (ps : List Pattern) (f : List (List Char) → List Char) :
    ℕ → Bool → List Char → List Char
  | _, first, [] =>
      match exec ps first [] with
      | none => []
      | some (groups, _) => f groups
  | 0, first, c :: s =>
      match exec ps first (c :: s) with
      | none => c :: replaceFrom ps f 0 false s
      | some (groups, _) =>
          if groups.flatten.isEmpty then f groups ++ c :: replaceFrom ps f 0 false s
          else f groups ++ replaceFrom ps f (groups.flatten.length - 1) false s
  | k + 1, _, _ :: s => replaceFrom ps f k false s

/-- `text.replace(re, f)` with the flag `g`; the groups of the pattern are its parts. -/
def replace (ps : List Pattern) (f : List (List Char) → List Char) (text : List Char) :
    List Char :=
  replaceFrom ps f 0 true text

/-! ## What is matched -/

/-- Repetitions, none of which is empty. -/
inductive Repeated (one : Bool → List Char → List Char → Prop) :
    Bool → List Char → List Char → Prop
  | done {first : Bool} {rest : List Char} : Repeated one first [] rest
  | more {first : Bool} {u v rest : List Char} (hne : u ≠ []) (hone : one first u (v ++ rest))
      (hmore : Repeated one false v rest) : Repeated one first (u ++ v) rest

/-- The pattern matches a word that the rest of the text follows. -/
def Matches : Pattern → Bool → List Char → List Char → Prop
  | eps, _, w, _ => w = []
  | cls p, _, w, _ => ∃ c, p c = true ∧ w = [c]
  | seq p q, first, w, rest =>
      ∃ u v, w = u ++ v ∧ Matches p first u (v ++ rest) ∧ Matches q (first && u.isEmpty) v rest
  | alt p q, first, w, rest => Matches p first w rest ∨ Matches q first w rest
  | star p, first, w, rest => Repeated (Matches p) first w rest
  | start, first, w, _ => first = true ∧ w = []
  | finish, _, w, rest => rest = [] ∧ w = []
  | ahead p, first, w, rest => w = [] ∧ ∃ u v, rest = u ++ v ∧ Matches p first u v

/-- The groups match these words, which the rest of the text follows. -/
def GroupMatches : List Pattern → Bool → List (List Char) → List Char → Prop
  | [], _, groups, _ => groups = []
  | p :: ps, first, groups, rest =>
      ∃ g others, groups = g :: others ∧ Matches p first g (others.flatten ++ rest) ∧
        GroupMatches ps (first && g.isEmpty) others rest

section Iterate

variable {step : Bool → List Char → List Way} {one : Bool → List Char → List Char → Prop}

theorem mem_iterate (hstep : ∀ first s w rest, (w, rest) ∈ step first s ↔
      w ++ rest = s ∧ one first w rest) {n : ℕ} {first : Bool} {s w rest : List Char}
    (hn : s.length ≤ n) :
    (w, rest) ∈ iterate step n first s ↔ w ++ rest = s ∧ Repeated one first w rest := by
  induction n generalizing first s w with
  | zero =>
      have hs : s = [] := List.eq_nil_of_length_eq_zero (Nat.le_zero.mp hn)
      subst hs
      simp only [iterate, List.mem_singleton, Prod.mk.injEq, List.append_eq_nil_iff]
      exact ⟨fun h ↦ ⟨h, h.1 ▸ .done⟩, And.left⟩
  | succ n ih =>
      simp only [iterate, List.mem_append, List.mem_flatMap, List.mem_filter, List.mem_map,
        List.mem_singleton, Prod.mk.injEq]
      constructor
      · rintro (⟨⟨u, s'⟩, ⟨hu, hne⟩, ⟨v, rest'⟩, hv, rfl, rfl⟩ | ⟨rfl, rfl⟩)
        · obtain ⟨rfl, hone⟩ := (hstep _ _ _ _).mp hu
          have hne' : u ≠ [] := by simpa using hne
          have hlength : s'.length ≤ n := by
            have hpos := List.length_pos_of_ne_nil hne'
            rw [List.length_append] at hn
            omega
          obtain ⟨rfl, hmore⟩ := (ih hlength).mp hv
          exact ⟨List.append_assoc .., .more hne' hone hmore⟩
        · exact ⟨rfl, .done⟩
      · rintro ⟨rfl, hrepeated⟩
        cases hrepeated with
        | done => exact .inr ⟨rfl, rfl⟩
        | @more _ u v _ hne hone hmore =>
            left
            have hlength : (v ++ rest).length ≤ n := by
              have hpos := List.length_pos_of_ne_nil hne
              rw [List.append_assoc, List.length_append] at hn
              omega
            refine ⟨(u, v ++ rest), ⟨(hstep _ _ _ _).mpr ⟨(List.append_assoc ..).symm, hone⟩, ?_⟩,
              (v, rest), (ih hlength).mpr ⟨rfl, hmore⟩, rfl, rfl⟩
            simpa using hne

end Iterate

/-- The engine finds exactly the words that are matched. -/
theorem mem_ways {p : Pattern} {first : Bool} {s w rest : List Char} :
    (w, rest) ∈ ways p first s ↔ w ++ rest = s ∧ Matches p first w rest := by
  induction p generalizing first s w rest with
  | eps =>
      simp only [ways, Matches, List.mem_singleton, Prod.mk.injEq]
      constructor
      · rintro ⟨rfl, rfl⟩
        exact ⟨rfl, rfl⟩
      · rintro ⟨rfl, rfl⟩
        exact ⟨rfl, rfl⟩
  | cls p =>
      cases s with
      | nil =>
          simp only [ways, Matches, List.not_mem_nil, List.append_eq_nil_iff, false_iff]
          rintro ⟨⟨rfl, -⟩, c, -, hw⟩
          cases hw
      | cons c s =>
          simp only [ways, Matches]
          constructor
          · intro h
            split at h
            · rename_i hc
              obtain ⟨rfl, rfl⟩ := Prod.mk.inj (List.mem_singleton.mp h)
              exact ⟨rfl, c, hc, rfl⟩
            · cases h
          · rintro ⟨heq, d, hd, rfl⟩
            obtain ⟨rfl, rfl⟩ := List.cons.inj heq
            simp [hd]
  | seq p q ihp ihq =>
      simp only [ways, Matches, List.mem_flatMap, List.mem_map, Prod.mk.injEq]
      constructor
      · rintro ⟨⟨u, s'⟩, hu, ⟨v, rest'⟩, hv, rfl, rfl⟩
        obtain ⟨rfl, hp⟩ := ihp.mp hu
        obtain ⟨rfl, hq⟩ := ihq.mp hv
        exact ⟨List.append_assoc .., u, v, rfl, hp, hq⟩
      · rintro ⟨rfl, u, v, rfl, hp, hq⟩
        exact ⟨(u, v ++ rest), ihp.mpr ⟨(List.append_assoc ..).symm, hp⟩, (v, rest),
          ihq.mpr ⟨rfl, hq⟩, rfl, rfl⟩
  | alt p q ihp ihq =>
      simp only [ways, Matches, List.mem_append, ihp, ihq]
      exact and_or_left.symm
  | star p ih =>
      have hstep : ∀ first s w rest, (w, rest) ∈ ways p first s ↔
          w ++ rest = s ∧ Matches p first w rest := fun _ _ _ _ ↦ ih
      exact mem_iterate hstep (Nat.le_refl _)
  | start =>
      simp only [ways, Matches]
      cases first with
      | false => simp
      | true =>
          simp only [if_true, List.mem_singleton, Prod.mk.injEq, true_and]
          constructor
          · rintro ⟨rfl, rfl⟩
            exact ⟨rfl, rfl⟩
          · rintro ⟨rfl, rfl⟩
            exact ⟨rfl, rfl⟩
  | finish =>
      simp only [ways, Matches]
      cases s with
      | nil =>
          simp only [List.isEmpty_nil, if_true, List.mem_singleton, Prod.mk.injEq,
            List.append_eq_nil_iff]
          exact ⟨fun h ↦ ⟨h, h.symm⟩, And.left⟩
      | cons c s =>
          simp only [List.isEmpty_cons, Bool.false_eq_true, if_false, List.not_mem_nil, false_iff]
          rintro ⟨heq, rfl, rfl⟩
          cases heq
  | ahead p ih =>
      have hsome : (ways p first s).isEmpty = false ↔ ∃ u v, s = u ++ v ∧ Matches p first u v := by
        rw [List.isEmpty_eq_false_iff_exists_mem]
        constructor
        · rintro ⟨⟨u, v⟩, huv⟩
          obtain ⟨rfl, hp⟩ := ih.mp huv
          exact ⟨u, v, rfl, hp⟩
        · rintro ⟨u, v, rfl, hp⟩
          exact ⟨(u, v), ih.mpr ⟨rfl, hp⟩⟩
      simp only [ways, Matches]
      constructor
      · intro h
        split at h
        · cases h
        · rename_i hempty
          obtain ⟨rfl, rfl⟩ := Prod.mk.inj (List.mem_singleton.mp h)
          exact ⟨rfl, rfl, hsome.mp (by simpa using hempty)⟩
      · rintro ⟨rfl, rfl, hmatch⟩
        have hways := hsome.mpr hmatch
        rw [List.nil_append] at hways ⊢
        rw [if_neg (by simp only [hways, Bool.false_eq_true, not_false_eq_true])]
        exact List.mem_singleton.mpr rfl

section Words

variable {p : Char → Bool} {first : Bool} {w u rest : List Char}

theorem matches_lit : Matches (lit w) first u rest ↔ u = w := by
  induction w generalizing first u with
  | nil => exact Iff.rfl
  | cons c w ih =>
      constructor
      · rintro ⟨x, y, rfl, ⟨d, hd, rfl⟩, hy⟩
        have hdc : d = c := by simpa using hd
        rw [ih.mp hy, hdc]
        rfl
      · rintro rfl
        exact ⟨[c], w, rfl, ⟨c, by simp, rfl⟩, ih.mpr rfl⟩

theorem matches_star_cls : Matches (star (cls p)) first w rest ↔ ∀ c ∈ w, p c = true := by
  constructor
  · intro h
    induction (h : Repeated (Matches (cls p)) first w rest) with
    | done => exact fun c hc ↦ absurd hc List.not_mem_nil
    | more hne hone hmore ih =>
        obtain ⟨d, hd, rfl⟩ := hone
        intro c hc
        rcases List.mem_append.mp hc with hc | hc
        · exact List.mem_singleton.mp hc ▸ hd
        · exact ih c hc
  · intro h
    induction w generalizing first with
    | nil => exact Repeated.done
    | cons c w ih =>
        have hc := h c List.mem_cons_self
        exact Repeated.more (List.cons_ne_nil c []) ⟨c, hc, rfl⟩
          (ih fun d hd ↦ h d (List.mem_cons_of_mem c hd))

theorem matches_plus_cls :
    Matches (plus (cls p)) first w rest ↔ w ≠ [] ∧ ∀ c ∈ w, p c = true := by
  constructor
  · rintro ⟨u, v, rfl, ⟨c, hc, rfl⟩, hv⟩
    refine ⟨List.cons_ne_nil c v, ?_⟩
    intro d hd
    rcases List.mem_cons.mp hd with rfl | hd
    · exact hc
    · exact matches_star_cls.mp hv d hd
  · rintro ⟨hne, hall⟩
    obtain ⟨c, v, rfl⟩ := List.exists_cons_of_ne_nil hne
    exact ⟨[c], v, rfl, ⟨c, hall c List.mem_cons_self, rfl⟩,
      matches_star_cls.mpr fun d hd ↦ hall d (List.mem_cons_of_mem c hd)⟩

theorem matches_oneOf {q : Pattern} {qs : List Pattern} :
    Matches (oneOf q qs) first w rest ↔ ∃ r ∈ q :: qs, Matches r first w rest := by
  induction qs generalizing q with
  | nil => simp only [oneOf, List.mem_singleton, exists_eq_left]
  | cons r qs ih => simp only [oneOf, Matches, ih, List.mem_cons, exists_eq_or_imp]

end Words

theorem mem_groupWays {ps : List Pattern} {first : Bool} {s rest : List Char}
    {groups : List (List Char)} :
    (groups, rest) ∈ groupWays ps first s ↔
      groups.flatten ++ rest = s ∧ GroupMatches ps first groups rest := by
  induction ps generalizing first s groups with
  | nil =>
      simp only [groupWays, GroupMatches, List.mem_singleton, Prod.mk.injEq]
      constructor
      · rintro ⟨rfl, rfl⟩
        exact ⟨rfl, rfl⟩
      · rintro ⟨rfl, rfl⟩
        exact ⟨rfl, rfl⟩
  | cons p ps ih =>
      simp only [groupWays, GroupMatches, List.mem_flatMap, List.mem_map, Prod.mk.injEq]
      constructor
      · rintro ⟨⟨g, s'⟩, hg, ⟨others, rest'⟩, hothers, rfl, rfl⟩
        obtain ⟨rfl, hp⟩ := mem_ways.mp hg
        obtain ⟨rfl, hps⟩ := ih.mp hothers
        exact ⟨by simp, g, others, rfl, hp, hps⟩
      · rintro ⟨rfl, g, others, rfl, hp, hps⟩
        exact ⟨(g, others.flatten ++ rest), mem_ways.mpr ⟨by simp, hp⟩, (others, rest),
          ih.mpr ⟨rfl, hps⟩, rfl, rfl⟩

section Replace

variable {ps : List Pattern} {f : List (List Char) → List Char} {first : Bool}
  {s rest : List Char} {groups : List (List Char)}

theorem exec_eq_some (h : exec ps first s = some (groups, rest)) :
    groups.flatten ++ rest = s ∧ GroupMatches ps first groups rest :=
  mem_groupWays.mp (List.mem_of_mem_head? h)

theorem exec_eq_none (h : exec ps first s = none) :
    ¬(groups.flatten ++ rest = s ∧ GroupMatches ps first groups rest) := by
  intro hmatch
  have hmem := mem_groupWays.mpr hmatch
  rw [List.head?_eq_none_iff.mp h] at hmem
  cases hmem

theorem replaceFrom_drop {k : ℕ} {s : List Char} (hk : k ≤ s.length) :
    replaceFrom ps f k false s = replaceFrom ps f 0 false (s.drop k) := by
  induction k generalizing s with
  | zero => rfl
  | succ k ih =>
      cases s with
      | nil => cases hk
      | cons c s => exact ih (Nat.le_of_succ_le_succ hk)

end Replace

end Pattern

end Js
