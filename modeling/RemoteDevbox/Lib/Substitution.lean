import Mathlib.Data.List.Infix
import Mathlib.Data.List.Nodup

/-!
# Leftmost-longest substitution

A text is read from the left. Where the source of some rule starts, the longest
such source is one piece; any other letter is a piece of its own. The pieces give
the text back, and the text in which every source is replaced.
-/

namespace Substitution

variable {α : Type*}

/-- A source and what stands for it. -/
structure Rule (α : Type*) where
  source : List α
  dest : List α
  deriving DecidableEq

inductive Piece (α : Type*) where
  | keep (a : α)
  | hit (r : Rule α)

def Piece.original : Piece α → List α
  | .keep a => [a]
  | .hit r => r.source

def Piece.replaced : Piece α → List α
  | .keep a => [a]
  | .hit r => r.dest

def original (ps : List (Piece α)) : List α := ps.flatMap Piece.original

def replaced (ps : List (Piece α)) : List α := ps.flatMap Piece.replaced

@[simp] theorem original_nil : original ([] : List (Piece α)) = [] := rfl

@[simp] theorem original_cons (p : Piece α) (ps : List (Piece α)) :
    original (p :: ps) = p.original ++ original ps := rfl

@[simp] theorem replaced_nil : replaced ([] : List (Piece α)) = [] := rfl

@[simp] theorem replaced_cons (p : Piece α) (ps : List (Piece α)) :
    replaced (p :: ps) = p.replaced ++ replaced ps := rfl

/-- The longest source that starts the text is that of `r`. -/
structure Longest (rules : List (Rule α)) (text : List α) (r : Rule α) : Prop where
  mem : r ∈ rules
  starts : r.source <+: text
  longest : ∀ r' ∈ rules, r'.source <+: text → r'.source.length ≤ r.source.length

/-- The pieces of a text, from the left. -/
inductive Reads (rules : List (Rule α)) : List (Piece α) → Prop
  | done : Reads rules []
  | keep {a : α} {ps : List (Piece α)} (hnone : ∀ r ∈ rules, ¬ r.source <+: a :: original ps)
      (hrest : Reads rules ps) : Reads rules (.keep a :: ps)
  | hit {r : Rule α} {ps : List (Piece α)} (hlongest : Longest rules (r.source ++ original ps) r)
      (hrest : Reads rules ps) : Reads rules (.hit r :: ps)

/-- `out` is `text` with every source replaced, leftmost first and longest first. -/
def Substituted (rules : List (Rule α)) (text out : List α) : Prop :=
  ∃ ps, Reads rules ps ∧ original ps = text ∧ replaced ps = out

/-- No two rules share a source, and none is empty. -/
structure Functional (rules : List (Rule α)) : Prop where
  inj : ∀ r ∈ rules, ∀ r' ∈ rules, r.source = r'.source → r = r'
  nonempty : ∀ r ∈ rules, r.source ≠ []

section Unique

variable {rules : List (Rule α)}

theorem Longest.unique (hrules : Functional rules) {text : List α} {r r' : Rule α}
    (h : Longest rules text r) (h' : Longest rules text r') : r = r' := by
  have hlength : r.source.length = r'.source.length :=
    le_antisymm (h'.longest r h.mem h.starts) (h.longest r' h'.mem h'.starts)
  have hstarts : r.source <+: r'.source :=
    List.prefix_of_prefix_length_le h.starts h'.starts hlength.le
  exact hrules.inj r h.mem r' h'.mem (hstarts.eq_of_length hlength)

theorem original_ne_nil (hrules : Functional rules) {p : Piece α} {ps : List (Piece α)}
    (h : Reads rules (p :: ps)) : original (p :: ps) ≠ [] := by
  cases h with
  | keep => simp [Piece.original]
  | hit hlongest _ =>
      exact List.append_ne_nil_of_left_ne_nil (hrules.nonempty _ hlongest.mem) _

/-- A text is read in one way. -/
theorem Reads.unique (hrules : Functional rules) {ps qs : List (Piece α)} (hp : Reads rules ps)
    (hq : Reads rules qs) (heq : original ps = original qs) : ps = qs := by
  induction hp generalizing qs with
  | done =>
      cases qs with
      | nil => rfl
      | cons q qs => exact absurd heq.symm (original_ne_nil hrules hq)
  | @keep a ps hnone _ ih =>
      cases hq with
      | done => simp [Piece.original] at heq
      | keep _ hrest =>
          obtain ⟨rfl, horiginal⟩ := List.cons_eq_cons.mp heq
          rw [ih hrest horiginal]
      | @hit r qs hlongest _ =>
          have htext : a :: original ps = r.source ++ original qs := heq
          exact absurd (htext ▸ hlongest.starts) (hnone _ hlongest.mem)
  | @hit r ps hlongest _ ih =>
      cases hq with
      | done => exact absurd heq (original_ne_nil hrules (.hit hlongest ‹_›))
      | @keep b qs hnone _ =>
          have htext : r.source ++ original ps = b :: original qs := heq
          exact absurd (htext ▸ hlongest.starts) (hnone _ hlongest.mem)
      | @hit r' qs hlongest' hrest =>
          have htext : r.source ++ original ps = r'.source ++ original qs := heq
          rw [← htext] at hlongest'
          obtain rfl := hlongest.unique hrules hlongest'
          rw [ih hrest (List.append_cancel_left htext)]

theorem Substituted.unique (hrules : Functional rules) {text out out' : List α}
    (h : Substituted rules text out) (h' : Substituted rules text out') : out = out' := by
  obtain ⟨ps, hps, horiginal, rfl⟩ := h
  obtain ⟨qs, hqs, horiginal', rfl⟩ := h'
  rw [hps.unique hrules hqs (horiginal.trans horiginal'.symm)]

/-- A text without any source stays as it is. -/
theorem substituted_self {text : List α} (h : ∀ r ∈ rules, ¬ r.source <:+: text) :
    Substituted rules text text := by
  induction text with
  | nil => exact ⟨[], .done, rfl, rfl⟩
  | cons a text ih =>
      obtain ⟨ps, hps, rfl, hout⟩ := ih fun r hr hinfix ↦ h r hr (List.infix_cons hinfix)
      exact ⟨.keep a :: ps, .keep (fun r hr hstarts ↦ h r hr hstarts.isInfix) hps, rfl,
        congrArg (a :: ·) hout⟩

/-- The order in which the rules are listed does not matter. -/
theorem Reads.of_mem_iff {rules' : List (Rule α)} (hmem : ∀ r, r ∈ rules ↔ r ∈ rules')
    {ps : List (Piece α)} (h : Reads rules ps) : Reads rules' ps := by
  induction h with
  | done => exact .done
  | keep hnone _ ih => exact .keep (fun r hr ↦ hnone r ((hmem r).mpr hr)) ih
  | hit hlongest _ ih =>
      exact .hit ⟨(hmem _).mp hlongest.mem, hlongest.starts,
        fun r hr ↦ hlongest.longest r ((hmem r).mpr hr)⟩ ih

theorem Substituted.of_mem_iff {rules' : List (Rule α)} (hmem : ∀ r, r ∈ rules ↔ r ∈ rules')
    {text out : List α} (h : Substituted rules text out) : Substituted rules' text out := by
  obtain ⟨ps, hps, hrest⟩ := h
  exact ⟨ps, hps.of_mem_iff hmem, hrest⟩

end Unique

/-! ## There and back -/

section Back

/-- Read with every source replaced, the pieces start with `s`. -/
inductive Spells : List α → List (Piece α) → Prop
  | done {ps : List (Piece α)} : Spells [] ps
  | keep {a : α} {s : List α} {ps : List (Piece α)} (h : Spells s ps) :
      Spells (a :: s) (.keep a :: ps)
  | inside {s : List α} {r : Rule α} {ps : List (Piece α)} (h : s <+: r.dest) :
      Spells s (.hit r :: ps)
  | across {s : List α} {r : Rule α} {ps : List (Piece α)} (h : Spells s ps) :
      Spells (r.dest ++ s) (.hit r :: ps)

theorem spells_iff {s : List α} {ps : List (Piece α)} : Spells s ps ↔ s <+: replaced ps := by
  constructor
  · intro h
    induction h with
    | done => exact List.nil_prefix
    | keep _ ih => exact (List.prefix_cons_inj _).mpr ih
    | inside h => exact h.trans (List.prefix_append _ _)
    | across _ ih => exact (List.prefix_append_right_inj _).mpr ih
  · intro h
    induction ps generalizing s with
    | nil =>
        rw [List.prefix_nil.mp h]
        exact .done
    | cons p ps ih =>
        cases p with
        | keep a =>
            cases s with
            | nil => exact .done
            | cons b s =>
                obtain ⟨rfl, hs⟩ := List.cons_prefix_cons.mp h
                exact .keep (ih hs)
        | hit r =>
            have hdest : r.dest <+: replaced (.hit r :: ps) := List.prefix_append _ _
            rcases List.prefix_or_prefix_of_prefix h hdest with hinside | ⟨rest, rfl⟩
            · exact .inside hinside
            · exact .across (ih ((List.prefix_append_right_inj _).mp h))

/-- The rule that undoes `r`. -/
def Rule.back (r : Rule α) : Rule α := ⟨r.dest, r.source⟩

/-- No source of `back` is spelled where a letter was kept, and where a source was
replaced, the longest one is what replaced it. -/
def Clear (back : List (Rule α)) : List (Piece α) → Prop
  | [] => True
  | .keep a :: ps => (∀ q ∈ back, ¬ Spells q.source (.keep a :: ps)) ∧ Clear back ps
  | .hit r :: ps =>
      (r.back ∈ back ∧ ∀ q ∈ back, Spells q.source (.hit r :: ps) →
        q.source.length ≤ r.dest.length) ∧ Clear back ps

variable {forth back : List (Rule α)}

/-- Clear pieces are replaced back one by one. -/
theorem Clear.substituted {ps : List (Piece α)} (h : Clear back ps) :
    Substituted back (replaced ps) (original ps) := by
  induction ps with
  | nil => exact ⟨[], .done, rfl, rfl⟩
  | cons p ps ih =>
      cases p with
      | keep a =>
          obtain ⟨hnone, hrest⟩ := h
          obtain ⟨qs, hqs, hreplaced, horiginal⟩ := ih hrest
          refine ⟨.keep a :: qs, .keep (fun q hq hstarts ↦ hnone q hq (spells_iff.mpr ?_)) hqs,
            congrArg (a :: ·) hreplaced, congrArg (a :: ·) horiginal⟩
          rwa [hreplaced] at hstarts
      | hit r =>
          obtain ⟨⟨hmem, hlongest⟩, hrest⟩ := h
          obtain ⟨qs, hqs, hreplaced, horiginal⟩ := ih hrest
          refine ⟨.hit r.back :: qs, .hit ⟨hmem, List.prefix_append _ _, fun q hq hstarts ↦ ?_⟩ hqs,
            congrArg (r.dest ++ ·) hreplaced, congrArg (r.source ++ ·) horiginal⟩
          refine hlongest q hq (spells_iff.mpr ?_)
          rwa [hreplaced] at hstarts

/-- What ties two lists of rules together: `back` replaces by sources of `forth`, has
a rule for all that `forth` replaces by, and of these only the inverse rule goes back
within the source. -/
structure Paired (forth back : List (Rule α)) : Prop where
  dest : ∀ q ∈ back, ∃ r ∈ forth, r.source = q.dest
  source : ∀ r ∈ forth, ∃ q ∈ back, q.source = r.dest
  inverse : ∀ r ∈ forth, ∀ q ∈ back, r.dest <+: q.source → q.dest <+: r.source → q = r.back

/-- A text that comes back was clear. -/
theorem clear_of_substituted (hforth : Functional forth) (hpaired : Paired forth back)
    {ps : List (Piece α)} (hps : Reads forth ps)
    (h : Substituted back (replaced ps) (original ps)) : Clear back ps := by
  induction hps with
  | done => trivial
  | @keep a ps hnone hps ih =>
      obtain ⟨qs, hqs, hreplaced, horiginal⟩ := h
      cases hqs with
      | done => cases hreplaced
      | @keep b qs hnoneBack hqs =>
          have htext : b :: original qs = a :: replaced ps := hreplaced
          obtain ⟨rfl, hrest⟩ := List.cons_eq_cons.mp htext
          have hback : replaced qs = original ps := (List.cons_eq_cons.mp horiginal).2
          refine ⟨fun q hq hspells ↦ hnoneBack q hq ?_, ih ⟨qs, hqs, hrest, hback⟩⟩
          rw [hrest]
          exact spells_iff.mp hspells
      | @hit q qs hlongest hqs =>
          -- the text would start with a source of `forth` where none starts
          obtain ⟨r, hr, hsource⟩ := hpaired.dest q hlongest.mem
          refine absurd ?_ (hnone r hr)
          rw [hsource]
          exact ⟨replaced qs, horiginal⟩
  | @hit r ps hlongest hps ih =>
      obtain ⟨qs, hqs, hreplaced, horiginal⟩ := h
      obtain ⟨q₀, hq₀, hsource₀⟩ := hpaired.source r hlongest.mem
      have hstarts : r.dest <+: original qs := by
        rw [hreplaced]
        exact List.prefix_append _ _
      cases hqs with
      | done =>
          have hnil : r.dest = [] := List.prefix_nil.mp hstarts
          have hsourceNil : r.source = [] := by
            have htext : r.source ++ original ps = [] := horiginal.symm
            exact (List.append_eq_nil_iff.mp htext).1
          exact absurd hsourceNil (hforth.nonempty r hlongest.mem)
      | keep hnoneBack _ =>
          refine absurd ?_ (hnoneBack q₀ hq₀)
          rw [hsource₀]
          exact hstarts
      | @hit q qs hlongestBack hqs =>
          have hlength := hlongestBack.longest q₀ hq₀ (hsource₀ ▸ hstarts)
          rw [hsource₀] at hlength
          have hdest : r.dest <+: q.source :=
            List.prefix_of_prefix_length_le hstarts (List.prefix_append _ _) hlength
          obtain ⟨r', hr', hsource'⟩ := hpaired.dest q hlongestBack.mem
          have htext : q.dest ++ replaced qs = r.source ++ original ps := horiginal
          have hback : q.dest <+: r.source ++ original ps := ⟨_, htext⟩
          have hshorter := hlongest.longest r' hr' (hsource' ▸ hback)
          rw [hsource'] at hshorter
          have hstarts : q.dest <+: r.source :=
            List.prefix_of_prefix_length_le hback (List.prefix_append _ _) hshorter
          obtain rfl := hpaired.inverse r hlongest.mem q hlongestBack.mem hdest hstarts
          have hreplaced' : original qs = replaced ps := List.append_cancel_left hreplaced
          refine ⟨⟨hlongestBack.mem, fun q hq hspells ↦ hlongestBack.longest q hq ?_⟩,
            ih ⟨qs, hqs, hreplaced', List.append_cancel_left htext⟩⟩
          rw [hreplaced']
          exact spells_iff.mp hspells

end Back

end Substitution
