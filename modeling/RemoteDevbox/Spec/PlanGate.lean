import RemoteDevbox.Spec.GateStages
import RemoteDevbox.Spec.Totality

namespace RemoteDevbox.Spec

open Js Client

/-!
# The gate in the plan

The plan shows the heavy-job settings of a developer in one line, which it reads
off the resolved spec with defaults of its own. What is printed can be read back,
except for the memory limits: they are left out where no overall limit is stated.
-/

/-! ## The line, part by part -/

/-- What the line of an enabled gate is made of. The texts that are not printed
are empty. -/
structure Printed where
  categories : List String
  wait : List Char
  warn : List Char
  memory : Option (List Char × List (List Char × List Char))
  slots : List Char
  total : List Char

namespace Printed

/-- The overall limit and the limits of the categories. -/
def memoryText (shown : List Char) (limits : List (List Char × List Char)) : List Char :=
  ['/'].intercalate (shown :: limits.map fun p ↦ p.1 ++ ' ' :: p.2)

/-- The last one or two segments. -/
def capacity (p : Printed) : List (List Char) :=
  if p.total = [] then [" slots ".toList ++ p.slots]
  else [" slots ".toList ++ p.slots ++ [' '], " total ".toList ++ p.total]

/-- The line without its dots. -/
def segments (p : Printed) : List (List Char) :=
  "on ".toList :: (' ' :: (",".intercalate p.categories).toList ++ [' ']) ::
    (" timeout ".toList ++ p.wait ++ "s ".toList) ::
    (" warn ".toList ++ p.warn ++ "s ".toList) ::
    match p.memory with
    | none => p.capacity
    | some (shown, limits) =>
        (" memory ".toList ++ (memoryText shown limits ++ [' '])) :: p.capacity

/-- The texts have no separators. -/
structure Plain (p : Printed) : Prop where
  categories : p.categories ⊆ HEAVY_JOB_CATEGORIES
  wait : '·' ∉ p.wait
  warn : '·' ∉ p.warn
  slots : '·' ∉ p.slots
  total : '·' ∉ p.total
  memory : ∀ shown limits, p.memory = some (shown, limits) →
    ('·' ∉ shown ∧ '/' ∉ shown) ∧
      ∀ q ∈ limits, ('·' ∉ q.1 ∧ '/' ∉ q.1 ∧ ' ' ∉ q.1) ∧ '·' ∉ q.2 ∧ '/' ∉ q.2

theorem categories_inj {xs ys : List String} (hx : xs ⊆ HEAVY_JOB_CATEGORIES)
    (hy : ys ⊆ HEAVY_JOB_CATEGORIES)
    (h : (",".intercalate xs).toList = (",".intercalate ys).toList) : xs = ys := by
  have hplain : ∀ c ∈ HEAVY_JOB_CATEGORIES, ',' ∉ c.toList ∧ c.toList ≠ [] := by decide
  have hsplit : ∀ zs ⊆ HEAVY_JOB_CATEGORIES, zs ≠ [] →
      (",".intercalate zs).toList.splitOn ',' = zs.map String.toList := by
    intro zs hzs hne
    rw [String.toList_intercalate]
    refine List.splitOn_intercalate ',' ?_ (by simpa using hne)
    intro l hl
    obtain ⟨c, hc, rfl⟩ := List.mem_map.mp hl
    exact (hplain c (hzs hc)).1
  have hempty : ∀ zs ⊆ HEAVY_JOB_CATEGORIES, (",".intercalate zs).toList = [] → zs = [] := by
    intro zs hzs hnil
    by_contra hne
    have hone := hsplit zs hzs hne
    rw [hnil, List.splitOn_nil] at hone
    obtain ⟨c, rest, rfl⟩ := List.exists_cons_of_ne_nil hne
    exact (hplain c (hzs List.mem_cons_self)).2 (List.cons.inj hone).1.symm
  by_cases hxs : xs = []
  · subst hxs
    exact (hempty ys hy h.symm).symm
  · by_cases hys : ys = []
    · subst hys
      exact hempty xs hx h
    · have hmaps := (hsplit xs hx hxs).symm.trans ((congrArg _ h).trans (hsplit ys hy hys))
      exact List.map_injective_iff.mpr (fun a b hab ↦ String.toList_inj.mp hab) hmaps

theorem pairs_inj {ps qs : List (List Char × List Char)}
    (hp : ∀ p ∈ ps, ' ' ∉ p.1) (hq : ∀ q ∈ qs, ' ' ∉ q.1)
    (h : ps.map (fun p ↦ p.1 ++ ' ' :: p.2) = qs.map fun q ↦ q.1 ++ ' ' :: q.2) : ps = qs := by
  induction ps generalizing qs with
  | nil => exact (List.map_eq_nil_iff.mp h.symm).symm
  | cons p ps ih =>
      cases qs with
      | nil => cases h
      | cons q qs =>
          obtain ⟨hp, hps⟩ := List.forall_mem_cons.mp hp
          obtain ⟨hq, hqs⟩ := List.forall_mem_cons.mp hq
          obtain ⟨hhead, htail⟩ := List.cons.inj h
          obtain ⟨hkey, hvalue⟩ := (append_sep_inj hp hq).mp hhead
          rw [ih hps hqs htail, Prod.ext hkey hvalue]

theorem memoryText_inj {shown shown' : List Char} {limits limits' : List (List Char × List Char)}
    (hs : '/' ∉ shown) (hs' : '/' ∉ shown')
    (hl : ∀ q ∈ limits, '/' ∉ q.1 ∧ ' ' ∉ q.1 ∧ '/' ∉ q.2)
    (hl' : ∀ q ∈ limits', '/' ∉ q.1 ∧ ' ' ∉ q.1 ∧ '/' ∉ q.2)
    (h : memoryText shown limits = memoryText shown' limits') :
    shown = shown' ∧ limits = limits' := by
  have hsplit : ∀ (text : List Char) (pairs : List (List Char × List Char)), '/' ∉ text →
      (∀ q ∈ pairs, '/' ∉ q.1 ∧ ' ' ∉ q.1 ∧ '/' ∉ q.2) → (memoryText text pairs).splitOn '/' =
        text :: pairs.map fun p ↦ p.1 ++ ' ' :: p.2 := by
    intro text pairs htext hpairs
    refine List.splitOn_intercalate '/' (List.forall_mem_cons.mpr ⟨htext, ?_⟩) (List.cons_ne_nil _ _)
    intro l hmem
    obtain ⟨q, hq, rfl⟩ := List.mem_map.mp hmem
    obtain ⟨hkey, _, hvalue⟩ := hpairs q hq
    simp [hkey, hvalue]
  have hlists := (hsplit _ _ hs hl).symm.trans ((congrArg _ h).trans (hsplit _ _ hs' hl'))
  obtain ⟨rfl, hpairs⟩ := List.cons.inj hlists
  exact ⟨rfl, pairs_inj (fun q hq ↦ (hl q hq).2.1) (fun q hq ↦ (hl' q hq).2.1) hpairs⟩

/-- The dots separate the segments. -/
theorem Plain.segments {p : Printed} (h : p.Plain) : ∀ l ∈ p.segments, '·' ∉ l := by
  have hcategories : '·' ∉ (",".intercalate p.categories).toList := by
    rw [String.toList_intercalate]
    have hnames : ∀ l ∈ p.categories.map String.toList, '·' ∉ l := by
      intro l hl
      obtain ⟨c, hc, rfl⟩ := List.mem_map.mp hl
      have hplain : ∀ c ∈ HEAVY_JOB_CATEGORIES, '·' ∉ c.toList := by decide
      exact hplain c (h.categories hc)
    exact notMem_intercalate (by decide) hnames
  have hmemory : ∀ shown limits, p.memory = some (shown, limits) →
      '·' ∉ memoryText shown limits := by
    intro shown limits hp
    obtain ⟨⟨hshown, _⟩, hlimits⟩ := h.memory shown limits hp
    refine notMem_intercalate (by decide) (List.forall_mem_cons.mpr ⟨hshown, ?_⟩)
    intro l hl
    obtain ⟨q, hq, rfl⟩ := List.mem_map.mp hl
    obtain ⟨⟨hkey, _⟩, hvalue, _⟩ := hlimits q hq
    simp [hkey, hvalue]
  have hcapacity : ∀ l ∈ p.capacity, '·' ∉ l := by
    intro l hl
    unfold capacity at hl
    split at hl
    · rw [List.mem_singleton.mp hl]
      simpa using h.slots
    · simp only [List.mem_cons, List.not_mem_nil, or_false] at hl
      rcases hl with rfl | rfl
      · simpa using h.slots
      · simpa using h.total
  refine List.forall_mem_cons.mpr ⟨by decide, List.forall_mem_cons.mpr ⟨by simpa using hcategories,
    List.forall_mem_cons.mpr ⟨by simpa using h.wait, List.forall_mem_cons.mpr
      ⟨by simpa using h.warn, ?_⟩⟩⟩⟩
  split
  · exact hcapacity
  · rename_i shown limits hp
    exact List.forall_mem_cons.mpr ⟨by simpa using hmemory shown limits hp, hcapacity⟩

theorem capacity_inj {p q : Printed} (h : p.capacity = q.capacity) :
    p.slots = q.slots ∧ p.total = q.total := by
  unfold capacity at h
  split at h <;> rename_i hp <;> split at h <;> rename_i hq
  · exact ⟨List.append_cancel_left (List.cons.inj h).1, hp.trans hq.symm⟩
  · exact absurd (congrArg List.length h) (by simp)
  · exact absurd (congrArg List.length h) (by simp)
  · obtain ⟨hslots, hrest⟩ := List.cons.inj h
    exact ⟨List.append_cancel_left (List.append_cancel_right hslots),
      List.append_cancel_left (List.cons.inj hrest).1⟩

/-- No segment of the capacity is taken for the one of the memory. -/
theorem capacity_ne {p : Printed} {text : List Char} {rest : List (List Char)} :
    p.capacity ≠ (" memory ".toList ++ text) :: rest := by
  unfold capacity
  split <;> exact fun h ↦ absurd (List.cons.inj (List.cons.inj (List.cons.inj h).1).2).1 (by decide)

theorem segments_inj {p q : Printed} (hp : p.Plain) (hq : q.Plain) (h : p.segments = q.segments) :
    p = q := by
  obtain ⟨_, h⟩ := List.cons.inj h
  obtain ⟨hcategories, h⟩ := List.cons.inj h
  obtain ⟨hwait, h⟩ := List.cons.inj h
  obtain ⟨hwarn, h⟩ := List.cons.inj h
  have hsame : p.memory = q.memory ∧ p.capacity = q.capacity := by
    cases hpm : p.memory with
    | none =>
        cases hqm : q.memory with
        | none =>
            rw [hpm, hqm] at h
            exact ⟨rfl, h⟩
        | some stated =>
            rw [hpm, hqm] at h
            exact absurd h capacity_ne
    | some stated =>
        cases hqm : q.memory with
        | none =>
            rw [hpm, hqm] at h
            exact absurd h.symm capacity_ne
        | some stated' =>
            rw [hpm, hqm] at h
            obtain ⟨htext, h⟩ := List.cons.inj h
            have hsame := List.append_cancel_right (List.append_cancel_left htext)
            obtain ⟨⟨_, hs⟩, hl⟩ := hp.memory stated.1 stated.2 hpm
            obtain ⟨⟨_, hs'⟩, hl'⟩ := hq.memory stated'.1 stated'.2 hqm
            obtain ⟨hshown, hlimits⟩ := memoryText_inj hs hs'
              (fun q hq ↦ ⟨(hl q hq).1.2.1, (hl q hq).1.2.2, (hl q hq).2.2⟩)
              (fun q hq ↦ ⟨(hl' q hq).1.2.1, (hl' q hq).1.2.2, (hl' q hq).2.2⟩) hsame
            exact ⟨congrArg some (Prod.ext hshown hlimits), h⟩
  obtain ⟨hslots, htotal⟩ := capacity_inj hsame.2
  have hnames := categories_inj hp.categories hq.categories
    (List.append_cancel_right (List.cons.inj hcategories).2)
  obtain ⟨_, _, _, _, _, _⟩ := p
  obtain ⟨_, _, _, _, _, _⟩ := q
  rw [Printed.mk.injEq]
  exact ⟨hnames, List.append_cancel_left (List.append_cancel_right hwait),
    List.append_cancel_left (List.append_cancel_right hwarn), hsame.1, hslots, htotal⟩

/-- A line can be read in one way only. -/
theorem line_inj {p q : Printed} (hp : p.Plain) (hq : q.Plain)
    (h : ['·'].intercalate p.segments = ['·'].intercalate q.segments) : p = q := by
  have hne : ∀ r : Printed, r.segments ≠ [] := fun _ ↦ List.cons_ne_nil _ _
  refine segments_inj hp hq ?_
  rw [← List.splitOn_intercalate '·' hp.segments (hne p), h,
    List.splitOn_intercalate '·' hq.segments (hne q)]

end Printed

/-! ## Blocks that are admitted -/

/-- A size without `/` and the like. -/
def PlainText (text : List Char) : Prop := '·' ∉ text ∧ '/' ∉ text ∧ ' ' ∉ text

/-- A heavy-job block of an accepted spec. -/
structure GateBlock (gate : Val) : Prop where
  enabled : gate.get "enabled" = .undef ∨ (gate.get "enabled").isBool = true
  category : ∀ c, (gate.get "categories").get c = .undef ∨
    ((gate.get "categories").get c).isBool = true
  waits : ∀ k ∈ ["wait_timeout_sec", "warn_after_sec"],
    gate.get k = .undef ∨ isIntegerFrom 0 (gate.get k) = true
  slots : gate.get "slots" = .undef ∨ isIntegerIn 1 16 (gate.get "slots") = true
  overall : IsLimit (gate.get "memory_max")
  total : IsLimit (gate.get "total_memory_max")
  limits : ∀ c, (gate.get "memory_max_by_category").get c =
    Fields.lookup (gate.get "memory_max_by_category").ownFields c
  entries : ∀ p ∈ (gate.get "memory_max_by_category").ownFields, PlainText p.1.toList ∧
    ∃ s c, p.2 = .str s ∧ canonicalMemorySize s = some c
  keys : (gate.get "memory_max_by_category").ownFields.keys.Nodup

theorem plain_of_inherited {k : String} (h : (Val.inherited k).truthy = true) :
    PlainText k.toList := by
  unfold Val.inherited at h
  split at h <;> first | (unfold PlainText; decide) | cases h

theorem gateBlock_of_passes {gate : Val} {path : String} (hparsed : gate = .undef ∨ gate.parsed = true)
    (h : (validateHeavyJobGate gate path).Passes) : GateBlock gate := by
  rcases Check.passes_section?.mp h with rfl | ⟨fs, rfl, hbody⟩
  · exact ⟨.inl rfl, fun _ ↦ .inl rfl, fun _ _ ↦ .inl rfl, .inl rfl, .inl rfl, .inl rfl,
      fun _ ↦ rfl, fun p hp ↦ absurd hp List.not_mem_nil, List.nodup_nil⟩
  · simp only [Check.passes_append, passes_optional, Check.passes_each, and_assoc] at hbody
    obtain ⟨_, henabled, hcategories, hwaits, hmemory, hslots, htotal, hlimits⟩ := hbody
    refine ⟨henabled, ?_, hwaits, hslots, hmemory.imp id str_of_isDirectSize,
      htotal.imp id str_of_isDirectSize, ?_, ?_, ?_⟩
    · intro c
      rcases Check.passes_section?.mp hcategories with hundef | ⟨cs, hcs, hentries⟩
      · rw [hundef]
        exact .inl rfl
      · rw [hcs]
        by_cases hstated : Fields.lookup cs c = .undef
        · exact .inl hstated
        · have hmem := Fields.lookup_mem (Fields.mem_keys_of_lookup hstated)
          have hentry := Check.passes_each.mp hentries _ hmem
          split at hentry
          · exact (Check.not_passes_fail _ _ hentry).elim
          · simp only [Check.passes_when, Check.not_passes_fail, imp_false, Bool.not_eq_true',
              Bool.not_eq_false] at hentry
            exact .inr hentry
    · intro c
      rcases Check.passes_section?.mp hlimits with hundef | ⟨ls, hls, _⟩
      · rw [hundef]
        rfl
      · rw [hls]
        rfl
    · intro p hp
      rcases Check.passes_section?.mp hlimits with hundef | ⟨ls, hls, hentries⟩
      · rw [hundef] at hp
        cases hp
      · rw [hls] at hp
        have hentry := Check.passes_each.mp hentries p hp
        split at hentry
        · exact (Check.not_passes_fail _ _ hentry).elim
        · rename_i hallowed
          simp only [Check.passes_when, Check.not_passes_fail, imp_false, Bool.not_eq_true',
            Bool.not_eq_false] at hentry
          refine ⟨?_, str_of_isDirectSize hentry⟩
          rw [Bool.not_eq_true', Bool.not_eq_false, Val.index] at hallowed
          split at hallowed
          · rename_i hkey
            have hplain : ∀ c ∈ HEAVY_JOB_CATEGORIES, PlainText c.toList := by
              unfold PlainText
              decide
            refine hplain p.1 ?_
            simpa [Fields.keys, List.map_map, Function.comp_def] using hkey
          · exact plain_of_inherited hallowed
    · rcases Check.passes_section?.mp hlimits with hundef | ⟨ls, hls, _⟩
      · rw [hundef]
        exact List.nodup_nil
      · have hls' := Val.parsed_get (hparsed.resolve_left Val.noConfusion) (k := "memory_max_by_category")
          (by rw [hls]; exact Val.noConfusion)
        rw [hls] at hls' ⊢
        exact (Val.parsed_obj.mp hls').1

section Sizes

open Regex

def isSizeChar (c : Char) : Bool :=
  isDigit c || c == 'K' || c == 'M' || c == 'G' || c == 'T' || c == 'B' || c == '%'

theorem plain_of_isSizeChar {text : List Char} (h : ∀ c ∈ text, isSizeChar c = true) :
    PlainText text := by
  have hne : ∀ c : Char, isSizeChar c = false → c ∉ text := by
    intro c hc hmem
    exact Bool.false_ne_true (hc.symm.trans (h c hmem))
  exact ⟨hne '·' (by decide), hne '/' (by decide), hne ' ' (by decide)⟩

theorem isSizeChar_digit {c : Char} (h : isDigit c = true) : isSizeChar c = true := by
  simp [isSizeChar, h]

theorem isSizeChar_percent {text : List Char} (h : isMatch PERCENT_RE text = true) :
    ∀ c ∈ text, isSizeChar c = true := by
  obtain ⟨amount, sign, rfl, hamount, hsign⟩ := isMatch_seq.mp h
  refine List.forall_mem_append.mpr ⟨?_, ?_⟩
  · rcases isMatch_alt.mp hamount with hamount | hamount
    · obtain ⟨first, rest, rfl, hfirst, hrest⟩ := isMatch_seq.mp hamount
      refine List.forall_mem_append.mpr ⟨?_, ?_⟩
      · obtain ⟨d, hd, rfl⟩ := isMatch_cls.mp hfirst
        simp only [Bool.and_eq_true, decide_eq_true_eq] at hd
        have hzero : '0' ≤ d := Char.le_trans (b := '1') (by decide) hd.1
        exact List.forall_mem_singleton.mpr (isSizeChar_digit (by simp [isDigit, hzero, hd.2]))
      · rcases isMatch_alt.mp hrest with hrest | hrest
        · obtain ⟨d, hd, rfl⟩ := isMatch_cls.mp hrest
          exact List.forall_mem_singleton.mpr (isSizeChar_digit hd)
        · rw [isMatch_eps.mp hrest]
          exact fun c hc ↦ absurd hc List.not_mem_nil
    · rw [isMatch_lit.mp hamount]
      exact List.all_eq_true.mp (by decide)
  · rw [isMatch_chr.mp hsign]
    exact List.all_eq_true.mp (by decide)

theorem isSizeChar_direct {text : List Char} (h : isMatch DIRECT_SIZE_RE text = true) :
    ∀ c ∈ text, isSizeChar c = true := by
  obtain ⟨digits, rest, rfl, hdigits, hrest⟩ := isMatch_seq.mp h
  obtain ⟨unit, byte, rfl, hunit, hbyte⟩ := isMatch_seq.mp hrest
  refine List.forall_mem_append.mpr ⟨fun c hc ↦ ?_, List.forall_mem_append.mpr ⟨?_, ?_⟩⟩
  · exact isSizeChar_digit ((isMatch_plus_cls.mp hdigits).2 c hc)
  · rcases isMatch_alt.mp hunit with hunit | hunit
    · obtain ⟨u, hu, rfl⟩ := isMatch_cls.mp hunit
      simp only [Bool.or_eq_true, beq_iff_eq] at hu
      refine List.forall_mem_singleton.mpr ?_
      rcases hu with ((rfl | rfl) | rfl) | rfl <;> decide
    · rw [isMatch_eps.mp hunit]
      exact fun c hc ↦ absurd hc List.not_mem_nil
  · rcases isMatch_alt.mp hbyte with hbyte | hbyte
    · rw [isMatch_chr.mp hbyte]
      exact List.all_eq_true.mp (by decide)
    · rw [isMatch_eps.mp hbyte]
      exact fun c hc ↦ absurd hc List.not_mem_nil

/-- A size has digits, a unit and a percent sign. -/
theorem plain_of_canonical {s c : String} (h : canonicalMemorySize s = some c) :
    PlainText s.toList := by
  apply plain_of_isSizeChar
  unfold canonicalMemorySize at h
  split at h
  · rename_i hsame
    rcases (Bool.or_eq_true _ _).mp hsame with hempty | hpercent
    · rw [beq_iff_eq.mp hempty]
      exact fun c hc ↦ absurd hc List.not_mem_nil
    · exact isSizeChar_percent hpercent
  · split at h
    · rename_i hdirect
      exact isSizeChar_direct hdirect
    · cases h

end Sizes

/-! ## What is printed -/

/-- The text of a number or of a text. -/
def shown : Val → List Char
  | .num n => n.text
  | .str s => s.toList
  | _ => []

def mergedLimits (host developer : Val) : Fields :=
  (host.get "memory_max_by_category").ownFields.merge
    (developer.get "memory_max_by_category").ownFields

/-- The overall limit that the plan consults; it has no default there. -/
def consultedOverall (host developer : Val) : Val :=
  (developer.get "memory_max").orElse (host.get "memory_max")

def printed (host developer : Val) : Printed where
  categories := HEAVY_JOB_CATEGORIES.filter fun c ↦ (gateCategory host developer c).truthy
  wait := shown (gateField host developer "wait_timeout_sec" 1800)
  warn := shown (gateField host developer "warn_after_sec" 5)
  memory :=
    if (consultedOverall host developer).truthy then
      some (shown (consultedOverall host developer),
        (mergedLimits host developer).map fun p ↦ (p.1.toList, shown p.2))
    else none
  slots := shown (gateField host developer "slots" 1)
  total := shown ((developer.get "total_memory_max").orElse (host.get "total_memory_max"))

section Line

variable {host developer : Val}

theorem toStr_num (n : Number) : (Val.num n).toStr = .ok (String.ofList (shown (.num n))) := by
  rw [Val.toStr]
  rfl

theorem toStr_str (s : String) : (Val.str s).toStr = .ok (String.ofList (shown (.str s))) := by
  rw [Val.toStr, shown, String.ofList_toList]

theorem num_of_isIntegerFrom {lo : ℤ} {v : Val} (h : isIntegerFrom lo v = true) :
    ∃ z : ℤ, v = .num (.ofInt z) := by
  cases v with
  | num n =>
      simp only [isIntegerFrom, Bool.and_eq_true] at h
      obtain ⟨z, rfl⟩ := Number.isInteger_iff.mp h.1
      exact ⟨z, rfl⟩
  | _ => cases h

theorem num_of_isIntegerIn {lo hi : ℤ} {v : Val} (h : isIntegerIn lo hi v = true) :
    ∃ z : ℤ, v = .num (.ofInt z) := by
  cases v with
  | num n =>
      simp only [isIntegerIn, Bool.and_eq_true] at h
      obtain ⟨z, rfl⟩ := Number.isInteger_iff.mp h.1.1
      exact ⟨z, rfl⟩
  | _ => cases h

/-- A setting that is a number wherever it is stated. -/
theorem gateField_num {k : String} (z : ℤ)
    (hhost : host.get k = .undef ∨ ∃ z : ℤ, host.get k = .num (.ofInt z))
    (hdev : developer.get k = .undef ∨ ∃ z : ℤ, developer.get k = .num (.ofInt z)) :
    ∃ z' : ℤ, gateField host developer k (.num (.ofInt z)) = .num (.ofInt z') := by
  rw [gateField]
  rcases hdev with hdev | ⟨d, hdev⟩
  · rw [hdev]
    rcases hhost with hhost | ⟨h, hhost⟩
    · rw [hhost]
      exact ⟨z, rfl⟩
    · rw [hhost]
      exact ⟨h, rfl⟩
  · rw [hdev]
    exact ⟨d, rfl⟩

/-- A limit that is stated at neither level, or is a size. -/
theorem isLimit_orElse {a b : Val} (ha : IsLimit a) (hb : IsLimit b) : IsLimit (a.orElse b) := by
  rcases ha with rfl | ⟨s, c, rfl, hc⟩
  · exact hb
  · exact .inr ⟨s, c, rfl, hc⟩

theorem pairTexts_strs {fields : Fields} (h : ∀ p ∈ fields, ∃ s, p.2 = .str s) :
    pairTexts "/" " " fields =
      .ok (fields.map fun p ↦ "/" ++ p.1 ++ " " ++ String.ofList (shown p.2)) := by
  induction fields with
  | nil => rfl
  | cons p fields ih =>
      obtain ⟨k, v⟩ := p
      obtain ⟨⟨s, hs⟩, hrest⟩ := List.forall_mem_cons.mp h
      obtain rfl : v = .str s := hs
      rw [pairTexts, toStr_str, ih hrest]
      rfl

theorem forall_pairs {P : String × Val → Prop} {fs gs : Fields} (hf : ∀ p ∈ fs, P p)
    (hg : ∀ p ∈ gs, P p) : ∀ p ∈ fs.merge gs, P p := by
  have hset : ∀ (fields : Fields) (k : String) (v : Val), P (k, v) → (∀ p ∈ fields, P p) →
      ∀ p ∈ fields.set k v, P p := by
    intro fields k v hv
    induction fields with
    | nil => exact fun _ ↦ by simpa [Fields.set] using hv
    | cons q fields ih =>
        intro hfields
        obtain ⟨hq, hfields⟩ := List.forall_mem_cons.mp hfields
        rw [Fields.set]
        split
        · exact List.forall_mem_cons.mpr ⟨hv, hfields⟩
        · exact List.forall_mem_cons.mpr ⟨hq, ih hfields⟩
  induction gs generalizing fs with
  | nil => exact hf
  | cons q gs ih =>
      obtain ⟨hq, hgs⟩ := List.forall_mem_cons.mp hg
      exact ih (hset fs q.1 q.2 hq hf) hgs

theorem GateBlock.merged (hhost : GateBlock host) (hdev : GateBlock developer) :
    ∀ p ∈ mergedLimits host developer, PlainText p.1.toList ∧
      ∃ s c, p.2 = .str s ∧ canonicalMemorySize s = some c :=
  forall_pairs hhost.entries hdev.entries

theorem GateBlock.wait_num (hhost : GateBlock host) (hdev : GateBlock developer) {k : String}
    (hk : k ∈ ["wait_timeout_sec", "warn_after_sec"]) (z : ℤ) :
    ∃ z' : ℤ, gateField host developer k (.num (.ofInt z)) = .num (.ofInt z') :=
  gateField_num z ((hhost.waits k hk).imp id num_of_isIntegerFrom)
    ((hdev.waits k hk).imp id num_of_isIntegerFrom)

theorem GateBlock.slots_num (hhost : GateBlock host) (hdev : GateBlock developer) :
    ∃ z : ℤ, gateField host developer "slots" 1 = .num (.ofInt z) :=
  gateField_num 1 (hhost.slots.imp id num_of_isIntegerIn) (hdev.slots.imp id num_of_isIntegerIn)

/-- The texts of an accepted gate have no separators. -/
theorem printed_plain (hhost : GateBlock host) (hdev : GateBlock developer) :
    (printed host developer).Plain := by
  have hnum : ∀ z : ℤ, '·' ∉ shown (.num (.ofInt z)) := fun z hz ↦
    absurd (Number.isNumeralChar_text _ '·' hz) (by decide)
  have hlimit : ∀ v, IsLimit v → PlainText (shown v) := by
    rintro v (rfl | ⟨s, c, rfl, hc⟩)
    · exact ⟨List.not_mem_nil, List.not_mem_nil, List.not_mem_nil⟩
    · exact plain_of_canonical hc
  refine ⟨List.filter_subset_self _, ?_, ?_, ?_, ?_, ?_⟩
  · obtain ⟨z, hz⟩ := hhost.wait_num hdev (k := "wait_timeout_sec") (by decide) 1800
    exact (congrArg (fun v ↦ '·' ∉ shown v) hz).mpr (hnum z)
  · obtain ⟨z, hz⟩ := hhost.wait_num hdev (k := "warn_after_sec") (by decide) 5
    exact (congrArg (fun v ↦ '·' ∉ shown v) hz).mpr (hnum z)
  · obtain ⟨z, hz⟩ := hhost.slots_num hdev
    exact (congrArg (fun v ↦ '·' ∉ shown v) hz).mpr (hnum z)
  · exact (hlimit _ (isLimit_orElse hdev.total hhost.total)).1
  · intro text limits hmemory
    simp only [printed] at hmemory
    split at hmemory
    · obtain ⟨rfl, rfl⟩ := Prod.mk.inj (Option.some.inj hmemory)
      have hoverall := hlimit _ (isLimit_orElse hdev.overall hhost.overall)
      refine ⟨⟨hoverall.1, hoverall.2.1⟩, fun q hq ↦ ?_⟩
      obtain ⟨p, hp, rfl⟩ := List.mem_map.mp hq
      obtain ⟨hkey, s, c, hs, hc⟩ := hhost.merged hdev p hp
      have hvalue := hlimit p.2 (.inr ⟨s, c, hs, hc⟩)
      exact ⟨hkey, hvalue.1, hvalue.2.1⟩
    · cases hmemory

theorem suffixed_limit {v : Val} (hv : IsLimit v) (text : String) :
    suffixed text v = .ok (if shown v = [] then "" else text ++ String.ofList (shown v)) := by
  rcases hv with rfl | ⟨s, c, rfl, _⟩
  · rfl
  · by_cases hs : s = ""
    · subst hs
      rfl
    · have hshown : shown (.str s) ≠ [] := fun h ↦ hs (String.toList_inj.mp h)
      have htruthy : (Val.str s).truthy = true := by simpa [Val.truthy] using hs
      rw [suffixed, if_pos htruthy, toStr_str, if_neg hshown]
      rfl

/-- The part of the line that is only there with an overall limit. -/
def Printed.memoryPart (p : Printed) : String :=
  match p.memory with
  | none => ""
  | some (shown, limits) => " · memory " ++ String.ofList (Printed.memoryText shown limits)

def Printed.totalPart (p : Printed) : String :=
  if p.total = [] then "" else " · total " ++ String.ofList p.total

theorem memoryText_toList (text : List Char) (limits : Fields) :
    String.ofList text ++ "".intercalate
        (limits.map fun p ↦ "/" ++ p.1 ++ " " ++ String.ofList (shown p.2)) =
      String.ofList (Printed.memoryText text (limits.map fun p ↦ (p.1.toList, shown p.2))) := by
  apply String.toList_inj.mp
  rw [String.toList_append, String.toList_ofList, String.toList_intercalate, String.toList_ofList,
    Printed.memoryText]
  have hjoin : ∀ ps : List (List Char), text ++ [].intercalate (ps.map ('/' :: ·)) =
      ['/'].intercalate (text :: ps) := by
    intro ps
    induction ps generalizing text with
    | nil => simp
    | cons l ps ih =>
        rw [List.intercalate_cons_cons, ← ih l, List.map_cons]
        cases ps <;> simp
  have hlists : (limits.map fun p ↦ "/" ++ p.1 ++ " " ++ String.ofList (shown p.2)).map
      String.toList = ((limits.map fun p ↦ (p.1.toList, shown p.2)).map
        fun p ↦ p.1 ++ ' ' :: p.2).map ('/' :: ·) := by
    rw [List.map_map, List.map_map, List.map_map]
    refine List.map_congr_left fun p _ ↦ ?_
    simp [Function.comp_def]
  rw [hlists, String.toList_ofList]
  exact hjoin _

theorem memory_line (hhost : GateBlock host) (hdev : GateBlock developer) :
    (if (consultedOverall host developer).truthy then do
      let shown ← (consultedOverall host developer).toStr
      let perCategory ← pairTexts "/" " " (mergedLimits host developer)
      pure (s!" · memory {shown}" ++ "".intercalate perCategory)
    else .ok "" : Js String) = .ok (printed host developer).memoryPart := by
  have hpairs := pairTexts_strs fun p hp ↦ by
    obtain ⟨_, s, _, hs, _⟩ := hhost.merged hdev p hp
    exact ⟨s, hs⟩
  by_cases hstated : (consultedOverall host developer).truthy = true
  · rcases isLimit_orElse hdev.overall hhost.overall with hnone | ⟨s, c, hs, _⟩
    · rw [consultedOverall, hnone] at hstated
      cases hstated
    · have hoverall : consultedOverall host developer = .str s := hs
      have hmemory : (printed host developer).memory = some (shown (.str s),
          (mergedLimits host developer).map fun p ↦ (p.1.toList, shown p.2)) := by
        rw [printed, if_pos hstated, hoverall]
      rw [if_pos hstated, Printed.memoryPart, hmemory, hoverall, toStr_str, hpairs]
      change Except.ok ((" · memory " ++ String.ofList (shown (.str s))) ++ _) = _
      rw [String.append_assoc, memoryText_toList]
  · have hmemory : (printed host developer).memory = none := by
      rw [printed, if_neg hstated]
    rw [if_neg hstated, Printed.memoryPart, hmemory]

/-- The parts, put together. -/
theorem line_toList (p : Printed) :
    ("on · " ++ ",".intercalate p.categories ++ " · timeout " ++ String.ofList p.wait ++
      "s · warn " ++ String.ofList p.warn ++ "s" ++ p.memoryPart ++ " · slots " ++
      String.ofList p.slots ++ p.totalPart).toList = ['·'].intercalate p.segments := by
  have hcapacity : " · slots ".toList ++ p.slots ++ p.totalPart.toList =
      ' ' :: '·' :: ['·'].intercalate p.capacity := by
    unfold Printed.totalPart Printed.capacity
    split <;> simp [List.intercalate_cons_cons]
  have hcapacityNe : p.capacity ≠ [] := by
    unfold Printed.capacity
    split <;> exact List.cons_ne_nil _ _
  have hrest : p.memoryPart.toList ++ (" · slots ".toList ++ p.slots ++ p.totalPart.toList) =
      ' ' :: '·' :: ['·'].intercalate (p.segments.drop 4) := by
    rw [hcapacity, Printed.memoryPart, Printed.segments]
    cases p.memory with
    | none => simp
    | some stated => simp [List.intercalate_cons_of_ne_nil hcapacityNe]
  have hne : p.segments.drop 4 ≠ [] := by
    rw [Printed.segments]
    cases p.memory <;> simp [hcapacityNe]
  have hsegments : p.segments = "on ".toList ::
      (' ' :: (",".intercalate p.categories).toList ++ [' ']) ::
      (" timeout ".toList ++ p.wait ++ "s ".toList) ::
      (" warn ".toList ++ p.warn ++ "s ".toList) :: p.segments.drop 4 := rfl
  rw [hsegments, List.intercalate_cons_cons, List.intercalate_cons_cons, List.intercalate_cons_cons,
    List.intercalate_cons_of_ne_nil hne]
  simp only [String.toList_append, String.toList_ofList, List.append_assoc] at hrest ⊢
  rw [hrest]
  simp

theorem heavyJobsLine_printed {dev : Val} (hhost : GateBlock host)
    (hdev : GateBlock (dev.get "heavy_job_gate"))
    (hon : (gateField host (dev.get "heavy_job_gate") "enabled" true).truthy = true) :
    ∃ line, heavyJobsLine dev host = .ok line ∧
      line.toList = ['·'].intercalate (printed host (dev.get "heavy_job_gate")).segments := by
  have hstr : ∀ v : Val, (∃ z : ℤ, v = .num (.ofInt z)) → v.toStr = .ok (String.ofList (shown v)) := by
    rintro v ⟨z, rfl⟩
    exact toStr_num _
  have hwait : (gateField host (dev.get "heavy_job_gate") "wait_timeout_sec" 1800).toStr = _ :=
    hstr _ (hhost.wait_num hdev (by decide) 1800)
  have hwarn : (gateField host (dev.get "heavy_job_gate") "warn_after_sec" 5).toStr = _ :=
    hstr _ (hhost.wait_num hdev (by decide) 5)
  have hslots := hstr _ (hhost.slots_num hdev)
  have htotal := suffixed_limit (isLimit_orElse hdev.total hhost.total) " · total "
  have hpairs := pairTexts_strs fun p hp ↦ by
    obtain ⟨_, s, _, hs, _⟩ := hhost.merged hdev p hp
    exact ⟨s, hs⟩
  have hmemory := memory_line hhost hdev
  refine ⟨_, ?_, line_toList _⟩
  rw [heavyJobsLine]
  dsimp only
  rw [if_neg (by rw [hon]; decide), hwait, hwarn, hslots, htotal]
  by_cases hstated : (consultedOverall host (dev.get "heavy_job_gate")).truthy = true
  · have hoverall : ∃ s, consultedOverall host (dev.get "heavy_job_gate") = .str s := by
      rcases isLimit_orElse hdev.overall hhost.overall with hnone | ⟨s, _, hs, _⟩
      · rw [consultedOverall, hnone] at hstated
        cases hstated
      · exact ⟨s, hs⟩
    obtain ⟨s, hs⟩ := hoverall
    rw [if_pos hstated, hs, toStr_str, hpairs] at hmemory
    rw [consultedOverall] at hs hstated
    rw [hs] at hstated
    rw [mergedLimits] at hpairs
    simp only [ok_bind, if_pos hstated, hs, toStr_str, hpairs, pure_eq_ok]
    rw [← Except.ok.inj hmemory]
    rfl
  · rw [if_neg hstated] at hmemory
    rw [consultedOverall] at hstated
    simp only [ok_bind, if_neg hstated]
    rw [← Except.ok.inj hmemory]
    rfl

theorem heavyJobsLine_off {dev : Val}
    (hoff : ¬(gateField host (dev.get "heavy_job_gate") "enabled" true).truthy = true) :
    heavyJobsLine dev host = .ok "off" := by
  rw [heavyJobsLine]
  dsimp only
  rw [if_pos (by simpa using hoff)]
  rfl

end Line

/-! ## What can be read back -/

theorem lookup_merge {fs gs : Fields} (hkeys : gs.keys.Nodup) (k : String) :
    (fs.merge gs).lookup k = if k ∈ Fields.keys gs then gs.lookup k else fs.lookup k := by
  induction gs generalizing fs with
  | nil => rfl
  | cons p gs ih =>
      obtain ⟨j, v⟩ := p
      obtain ⟨hj, hkeys⟩ := List.nodup_cons.mp hkeys
      have hstep : fs.merge ((j, v) :: gs) = (fs.set j v).merge gs := rfl
      rw [hstep, ih hkeys, Fields.lookup_set, Fields.lookup_cons]
      have hcons : k ∈ Fields.keys ((j, v) :: gs) ↔ k = j ∨ k ∈ Fields.keys gs := List.mem_cons
      by_cases hk : k ∈ Fields.keys gs
      · have hne : j ≠ k := fun heq ↦ hj (heq ▸ hk)
        rw [if_pos hk, if_pos (hcons.mpr (.inr hk)), if_neg hne]
      · rw [if_neg hk]
        by_cases hjk : j = k
        · rw [if_pos hjk, if_pos (hcons.mpr (.inl hjk.symm)), if_pos hjk]
        · rw [if_neg hjk, if_neg fun h ↦ (hcons.mp h).elim (fun h ↦ hjk h.symm) hk]

section ReadBack

variable {host developer host' developer' : Val}

theorem gateCategoryMemory_merged (hhost : GateBlock host) (hdev : GateBlock developer)
    (c : String) :
    gateCategoryMemory host developer c = (mergedLimits host developer).lookup c := by
  rw [gateCategoryMemory, hdev.limits, hhost.limits, mergedLimits, lookup_merge hdev.keys]
  split
  · rename_i hmem
    obtain ⟨_, s, _, hs, _⟩ := hdev.entries _ (Fields.lookup_mem hmem)
    obtain hs : Fields.lookup _ c = .str s := hs
    rw [hs]
    rfl
  · rename_i hmem
    rw [Fields.lookup_eq_undef_of_notMem hmem]
    rfl

theorem shown_num_inj {a b : ℤ}
    (h : shown (.num (.ofInt a)) = shown (.num (.ofInt b))) : a = b := by
  have hread := (Number.read_text (.ofInt a)).symm.trans
    ((congrArg Decimal.read h).trans (Number.read_text (.ofInt b)))
  exact Decimal.ofInt_inj.mp (Option.some.inj hread)

/-- A Boolean setting that counts as true exactly where another does. -/
theorem bool_eq_of_truthy {a b : Val} (ha : a.isBool = true) (hb : b.isBool = true)
    (h : a.truthy = b.truthy) : a = b := by
  cases a with
  | bool x =>
      cases b with
      | bool y => exact congrArg Val.bool h
      | _ => cases hb
  | _ => cases ha

theorem isBool_orElse {a b : Val} (ha : a = .undef ∨ a.isBool = true) (hb : b.isBool = true) :
    (a.orElse b).isBool = true := by
  rcases ha with rfl | ha
  · exact hb
  · cases a with
    | bool x => rfl
    | _ => cases ha

theorem GateBlock.category_bool (hhost : GateBlock host) (hdev : GateBlock developer) (c : String) :
    (gateCategory host developer c).isBool = true :=
  isBool_orElse (hdev.category c) (isBool_orElse (hhost.category c) rfl)

theorem GateBlock.enabled_bool (hhost : GateBlock host) (hdev : GateBlock developer) :
    (gateField host developer "enabled" true).isBool = true :=
  isBool_orElse hdev.enabled (isBool_orElse hhost.enabled rfl)

/-- A default is not needed where a level states the value. -/
theorem orElse_stated {a b d : Val} (h : (a.orElse b).isNullish = false) :
    a.orElse (b.orElse d) = a.orElse b := by
  simp only [Val.orElse] at h ⊢
  split <;> rename_i ha
  · rw [if_pos ha] at h
    rw [if_neg (by rw [h]; exact Bool.false_ne_true)]
  · rfl

theorem limits_inj {fs gs : Fields} (hf : ∀ p ∈ fs, ∃ s, p.2 = .str s)
    (hg : ∀ p ∈ gs, ∃ s, p.2 = .str s)
    (h : fs.map (fun p ↦ (p.1.toList, shown p.2)) = gs.map fun p ↦ (p.1.toList, shown p.2)) :
    fs = gs := by
  induction fs generalizing gs with
  | nil => exact (List.map_eq_nil_iff.mp h.symm).symm
  | cons p fs ih =>
      cases gs with
      | nil => cases h
      | cons q gs =>
          obtain ⟨⟨s, hs⟩, hf⟩ := List.forall_mem_cons.mp hf
          obtain ⟨⟨t, ht⟩, hg⟩ := List.forall_mem_cons.mp hg
          obtain ⟨hhead, htail⟩ := List.cons.inj h
          obtain ⟨hkey, hvalue⟩ := Prod.mk.inj hhead
          rw [hs, ht] at hvalue
          have hpq : p = q := Prod.ext (String.toList_inj.mp hkey)
            (by rw [hs, ht, String.toList_inj.mp hvalue])
          rw [hpq, ih hf hg htail]

theorem num_of_shown {v w : Val} (hv : ∃ z : ℤ, v = .num (.ofInt z))
    (hw : ∃ z : ℤ, w = .num (.ofInt z)) (h : shown v = shown w) : v = w := by
  obtain ⟨a, rfl⟩ := hv
  obtain ⟨b, rfl⟩ := hw
  rw [shown_num_inj h]

/-- The aggregate limit is shown, or there is none. -/
theorem total_shown (hhost : GateBlock host) (hdev : GateBlock developer) :
    gateField host developer "total_memory_max" "" =
      .str (String.ofList (printed host developer).total) := by
  have hlimit := isLimit_orElse hdev.total hhost.total
  rcases hlimit with hnone | ⟨s, _, hs, _⟩
  · have htotal : (printed host developer).total = [] := congrArg shown hnone
    rw [htotal, gateField]
    rcases hdev.total with hundef | ⟨t, _, ht, _⟩
    · rw [hundef] at hnone ⊢
      have hhostNone : host.get "total_memory_max" = .undef := hnone
      rw [hhostNone]
      rfl
    · rw [ht] at hnone
      cases hnone
  · have htotal : (printed host developer).total = s.toList := congrArg shown hs
    rw [htotal, gateField, orElse_stated (by rw [hs]; rfl), hs, String.ofList_toList]

/-- Two gates with the same line, of which one states an overall limit. -/
theorem gate_of_printed (hhost : GateBlock host) (hdev : GateBlock developer)
    (hhost' : GateBlock host') (hdev' : GateBlock developer')
    (hon : (gateField host developer "enabled" true).truthy = true)
    (hon' : (gateField host' developer' "enabled" true).truthy = true)
    (hstated : (consultedOverall host developer).truthy = true)
    (h : printed host developer = printed host' developer') :
    developerGate host developer = developerGate host' developer' := by
  have henabled : gateField host developer "enabled" true =
      gateField host' developer' "enabled" true :=
    bool_eq_of_truthy (hhost.enabled_bool hdev) (hhost'.enabled_bool hdev') (hon.trans hon'.symm)
  have hcategory : ∀ c ∈ HEAVY_JOB_CATEGORIES,
      gateCategory host developer c = gateCategory host' developer' c := by
    intro c hc
    refine bool_eq_of_truthy (hhost.category_bool hdev c) (hhost'.category_bool hdev' c) ?_
    have hmem : ∀ h d, c ∈ (printed h d).categories ↔ (gateCategory h d c).truthy = true := by
      intro h d
      simp [printed, hc]
    rw [Bool.eq_iff_iff, ← hmem, ← hmem, h]
  have hwait : gateField host developer "wait_timeout_sec" 1800 =
      gateField host' developer' "wait_timeout_sec" 1800 :=
    num_of_shown (hhost.wait_num hdev (by decide) 1800) (hhost'.wait_num hdev' (by decide) 1800)
      (congrArg Printed.wait h)
  have hwarn : gateField host developer "warn_after_sec" 5 =
      gateField host' developer' "warn_after_sec" 5 :=
    num_of_shown (hhost.wait_num hdev (by decide) 5) (hhost'.wait_num hdev' (by decide) 5)
      (congrArg Printed.warn h)
  have hslots : gateField host developer "slots" 1 = gateField host' developer' "slots" 1 :=
    num_of_shown (hhost.slots_num hdev) (hhost'.slots_num hdev') (congrArg Printed.slots h)
  have htotal : gateField host developer "total_memory_max" "" =
      gateField host' developer' "total_memory_max" "" := by
    rw [total_shown hhost hdev, total_shown hhost' hdev', h]
  obtain ⟨hstated', hshown, hlimits⟩ : (consultedOverall host' developer').truthy = true ∧
      shown (consultedOverall host developer) = shown (consultedOverall host' developer') ∧
      (mergedLimits host developer).map (fun p ↦ (p.1.toList, shown p.2)) =
        (mergedLimits host' developer').map fun p ↦ (p.1.toList, shown p.2) := by
    have hmemory := congrArg Printed.memory h
    simp only [printed, if_pos hstated] at hmemory
    split at hmemory
    · rename_i hstated'
      obtain ⟨hshown, hlimits⟩ := Prod.mk.inj (Option.some.inj hmemory)
      exact ⟨hstated', hshown, hlimits⟩
    · cases hmemory
  have hsizes : ∀ {h d : Val}, GateBlock h → GateBlock d → (consultedOverall h d).truthy = true →
      gateField h d "memory_max" "8G" = .str (String.ofList (shown (consultedOverall h d))) := by
    intro h d hh hd htruthy
    rcases isLimit_orElse hd.overall hh.overall with hnone | ⟨s, _, hs, _⟩
    · rw [consultedOverall, hnone] at htruthy
      cases htruthy
    · rw [gateField, orElse_stated (by rw [hs]; rfl), consultedOverall, hs, shown,
        String.ofList_toList]
  have hoverall : gateField host developer "memory_max" "8G" =
      gateField host' developer' "memory_max" "8G" := by
    rw [hsizes hhost hdev hstated, hsizes hhost' hdev' hstated', hshown]
  have hmerged : mergedLimits host developer = mergedLimits host' developer' := by
    refine limits_inj ?_ ?_ hlimits
    · intro p hp
      obtain ⟨_, s, _, hs, _⟩ := hhost.merged hdev p hp
      exact ⟨s, hs⟩
    · intro p hp
      obtain ⟨_, s, _, hs, _⟩ := hhost'.merged hdev' p hp
      exact ⟨s, hs⟩
  have hmemory : ∀ c, gateCategoryMemory host developer c = gateCategoryMemory host' developer' c := by
    intro c
    rw [gateCategoryMemory_merged hhost hdev, gateCategoryMemory_merged hhost' hdev', hmerged]
  have hcategories : HEAVY_JOB_CATEGORIES.map (fun c ↦ (c, gateCategory host developer c)) =
      HEAVY_JOB_CATEGORIES.map fun c ↦ (c, gateCategory host' developer' c) := by
    refine List.map_congr_left fun c hc ↦ ?_
    rw [hcategory c hc]
  rw [normalize_stage, normalize_stage]
  simp only [normalizeHeavyJobGate, henabled, hcategories, hwait, hwarn, hoverall, hmemory, hslots,
    htotal]

end ReadBack

/-! ## A gate that prints the same -/

section Counterpart

variable {host developer : Val}

/-- The settings that the line shows, with no overall limit and `limit` for builds. -/
def counterpart (host developer : Val) (limit : String) : Val :=
  .obj
    [("enabled", true),
     ("categories", .obj (HEAVY_JOB_CATEGORIES.map fun c ↦ (c, gateCategory host developer c))),
     ("wait_timeout_sec", gateField host developer "wait_timeout_sec" 1800),
     ("warn_after_sec", gateField host developer "warn_after_sec" 5),
     ("memory_max", ""),
     ("memory_max_by_category", .obj [("build", limit)]),
     ("slots", gateField host developer "slots" 1),
     ("total_memory_max", gateField host developer "total_memory_max" "")]

theorem orElse_good {good : Val → Bool} {a b : Val} (ha : a = .undef ∨ good a = true)
    (hb : good b = true) : good (a.orElse b) = true := by
  rcases ha with rfl | ha
  · exact hb
  · rw [Val.orElse]
    split
    · exact hb
    · exact ha

theorem counterpart_passes (hhost : GateBlock host) (hdev : GateBlock developer) {limit : String}
    (hlimit : isDirectSize (.str limit) = true) (path : String) :
    (validateHeavyJobGate (counterpart host developer limit) path).Passes := by
  have htotal : isDirectSize (gateField host developer "total_memory_max" "") = true := by
    rw [total_shown hhost hdev]
    rcases isLimit_orElse hdev.total hhost.total with hnone | ⟨s, c, hs, hc⟩
    · rw [show (printed host developer).total = [] from congrArg shown hnone]
      rfl
    · rw [show (printed host developer).total = s.toList from congrArg shown hs,
        String.ofList_toList]
      exact Option.isSome_iff_exists.mpr ⟨c, hc⟩
  refine Check.passes_section?.mpr (.inr ⟨_, rfl, ?_⟩)
  simp only [Check.passes_append, passes_optional, and_assoc]
  refine ⟨⟨[], rfl, rfl⟩, .inr rfl, ?_, ?_, .inr rfl, ?_, .inr htotal, ?_⟩
  · refine Check.passes_section?.mpr (.inr ⟨_, rfl, Check.passes_each.mpr fun p hp ↦ ?_⟩)
    obtain ⟨c, hc, rfl⟩ := List.mem_map.mp hp
    have hbool := hhost.category_bool hdev c
    rw [if_neg (by simp [hc]), hbool]
    exact Check.passes_pass
  · refine Check.passes_each.mpr fun k hk ↦ passes_optional.mpr (.inr ?_)
    simp only [List.mem_cons, List.not_mem_nil, or_false] at hk
    rcases hk with rfl | rfl
    · exact orElse_good (hdev.waits _ (by decide)) (orElse_good (hhost.waits _ (by decide)) rfl)
    · exact orElse_good (hdev.waits _ (by decide)) (orElse_good (hhost.waits _ (by decide)) rfl)
  · exact .inr (orElse_good hdev.slots (orElse_good hhost.slots rfl))
  · refine Check.passes_section?.mpr (.inr ⟨_, rfl, Check.passes_each.mpr fun p hp ↦ ?_⟩)
    have hallowed : ¬(!(Val.index (HEAVY_JOB_CATEGORIES.map fun c ↦ (c, (true : Val)))
        "build").truthy) = true := by decide +kernel
    rw [List.mem_singleton.mp hp, if_neg hallowed, hlimit]
    exact Check.passes_pass

theorem counterpart_parsed (hhost : GateBlock host) (hdev : GateBlock developer) (limit : String) :
    (counterpart host developer limit).parsed = true := by
  have hnum : ∀ v : Val, (∃ z : ℤ, v = .num (.ofInt z)) → v.parsed = true := by
    rintro v ⟨z, rfl⟩
    rfl
  have hbool : ∀ v : Val, v.isBool = true → v.parsed = true := by
    intro v hv
    cases v with
    | bool b => rfl
    | _ => cases hv
  have hcategories : (Val.obj (HEAVY_JOB_CATEGORIES.map fun c ↦
      (c, gateCategory host developer c))).parsed = true := by
    have hkeys : HEAVY_JOB_CATEGORIES.Nodup := by decide
    refine Val.parsed_obj.mpr ⟨hkeys, fun p hp ↦ ?_⟩
    obtain ⟨c, _, rfl⟩ := List.mem_map.mp hp
    exact hbool _ (hhost.category_bool hdev c)
  have hkeys : ["enabled", "categories", "wait_timeout_sec", "warn_after_sec", "memory_max",
      "memory_max_by_category", "slots", "total_memory_max"].Nodup := by decide
  refine Val.parsed_obj.mpr ⟨hkeys, ?_⟩
  simp only [List.forall_mem_cons]
  refine ⟨rfl, hcategories, hnum _ (hhost.wait_num hdev (by decide) 1800),
    hnum _ (hhost.wait_num hdev (by decide) 5), rfl, rfl, hnum _ (hhost.slots_num hdev), ?_,
    fun p hp ↦ absurd hp List.not_mem_nil⟩
  rw [total_shown hhost hdev]
  rfl

/-- A gate is the one thing that a smallest configuration adds. -/
theorem validateStructure_gate {gate : Val}
    (h : (validateHeavyJobGate gate "developers[0].heavy_job_gate").Passes) :
    (validateStructure homeEnv (specWith [] [("heavy_job_gate", gate)])).Passes := by
  have hpass : ∀ {c : Check}, c = .ok [] → c.Passes := fun hc ↦ ⟨[], hc, rfl⟩
  have hdeveloper : (validateDeveloper homeEnv "developers[0]" (.obj [("user", .str "ada"),
      ("login_ssh_keys", .arr ["ssh-ed25519 AAAA"]), ("heavy_job_gate", gate)])).Passes := by
    rw [validateDeveloper, if_pos (show Val.isRecord (.obj _) = true from rfl)]
    simp only [Check.passes_append, and_assoc]
    refine ⟨hpass rfl, hpass rfl, hpass rfl, hpass rfl, hpass rfl, hpass rfl, h, ?_⟩
    repeat' apply And.intro
    all_goals exact hpass rfl
  rw [passes_validateStructure]
  refine ⟨rfl, rfl, ?_⟩
  simp only [validateSections, Check.passes_append, and_assoc]
  refine ⟨hpass rfl, hpass rfl, hpass rfl, hpass rfl, hpass rfl, hpass rfl, hpass rfl, hpass rfl,
    hpass rfl, hpass rfl, ?_⟩
  change (Check.eachIdx [_] _ ++ _ ++ _ ++ _).Passes
  simp only [Check.passes_append, Check.passes_eachIdx, and_assoc]
  refine ⟨?_, hpass rfl, hpass rfl, hpass rfl⟩
  intro i d hd
  cases i with
  | zero =>
      obtain rfl := Option.some.inj hd
      exact hdeveloper
  | succ i => cases hd

/-- It prints what the gate prints that states no overall limit. -/
theorem printed_counterpart (hhost : GateBlock host) (hdev : GateBlock developer) (limit : String)
    (hnone : ¬(consultedOverall host developer).truthy = true) :
    printed .undef (counterpart host developer limit) = printed host developer := by
  have hkept : ∀ {v : Val}, v.isNullish = false → ∀ d, v.orElse d = v := by
    intro v hv d
    rw [Val.orElse, if_neg (by rw [hv]; exact Bool.false_ne_true)]
  have hcategories : ∀ c ∈ HEAVY_JOB_CATEGORIES,
      gateCategory .undef (counterpart host developer limit) c = gateCategory host developer c := by
    intro c hc
    have hbool := hhost.category_bool hdev c
    have hnullish : (gateCategory host developer c).isNullish = false := by
      cases hv : gateCategory host developer c with
      | bool b => rfl
      | _ =>
          rw [hv] at hbool
          cases hbool
    have hread : ((counterpart host developer limit).get "categories").get c =
        gateCategory host developer c := by
      simp only [HEAVY_JOB_CATEGORIES, List.mem_cons, List.not_mem_nil, or_false] at hc
      rcases hc with rfl | rfl | rfl | rfl <;> rfl
    rw [gateCategory, hread, hkept hnullish]
  have hnum : ∀ (k : String) (d : Val), (∃ z : ℤ, gateField host developer k d = .num (.ofInt z)) →
      (counterpart host developer limit).get k = gateField host developer k d →
      gateField .undef (counterpart host developer limit) k d = gateField host developer k d := by
    rintro k d ⟨z, hz⟩ hread
    rw [gateField, hread, hz]
    rfl
  have htotal : (printed .undef (counterpart host developer limit)).total =
      (printed host developer).total := by
    have hread : (counterpart host developer limit).get "total_memory_max" =
        gateField host developer "total_memory_max" "" := rfl
    rw [total_shown hhost hdev] at hread
    change shown (((counterpart host developer limit).get "total_memory_max").orElse _) = _
    rw [hread]
    exact String.toList_ofList
  rw [printed, printed, Printed.mk.injEq]
  refine ⟨List.filter_congr fun c hc ↦ by rw [hcategories c hc], ?_, ?_, ?_, ?_, htotal⟩
  · rw [hnum "wait_timeout_sec" 1800 (hhost.wait_num hdev (by decide) 1800) rfl]
  · rw [hnum "warn_after_sec" 5 (hhost.wait_num hdev (by decide) 5) rfl]
  · exact (if_neg Bool.false_ne_true).trans (if_neg hnone).symm
  · rw [hnum "slots" 1 (hhost.slots_num hdev) rfl]

end Counterpart

/-! ## Accepted configurations -/

def hostGate (resolved : Val) : Val := (resolved.get "host").get "heavy_job_gate"

theorem accepted_blocks {env : ClientEnv} {doc : Doc} {resolved rdev : Val}
    (h : Accepts env doc resolved) (hrdev : rdev ∈ developersOf resolved) :
    GateBlock (hostGate resolved) ∧ GateBlock (rdev.get "heavy_job_gate") := by
  obtain ⟨devs, haccepted⟩ := accepted h
  have hparsed : ∀ v : Val, v.parsed = true → ∀ k, v.get k = .undef ∨ (v.get k).parsed = true := by
    intro v hv k
    by_cases hk : v.get k = .undef
    · exact .inl hk
    · exact .inr (Val.parsed_get hv hk)
  constructor
  · rw [hostGate, haccepted.fields "host" (by decide)]
    rcases Check.passes_section?.mp haccepted.structured.host with hundef | ⟨fs, hobj, hbody⟩
    · rw [hundef]
      exact @gateBlock_of_passes Val.undef "host.heavy_job_gate" (.inl rfl) ⟨[], rfl, rfl⟩
    · have hhost := (hparsed doc.val doc.property "host").resolve_left (by rw [hobj]; exact Val.noConfusion)
      rw [hobj] at hhost ⊢
      simp only [Check.passes_append, and_assoc] at hbody
      obtain ⟨_, _, _, _, _, _, _, _, hgate, _⟩ := hbody
      exact gateBlock_of_passes (hparsed _ hhost "heavy_job_gate") hgate
  · obtain ⟨dev, hdev, _, hresolved⟩ := forall₂_exists_left haccepted.developers_match hrdev
    obtain ⟨base, hpasses⟩ := haccepted.developers.each dev hdev
    rw [hresolved.fields "heavy_job_gate" (by decide)]
    exact gateBlock_of_passes (hparsed dev (developer_parsed haccepted hdev) _) hpasses.gate

theorem generated_gate {client : ClientFacts} {resolved vars rdev vdev : Val}
    (h : normalize client resolved = .ok vars)
    (hmem : (rdev, vdev) ∈ (developersOf resolved).zip (listOf (vars.get "devbox_developers"))) :
    vdev.get "heavy_job_gate" = developerGate (hostGate resolved) (rdev.get "heavy_job_gate") := by
  obtain ⟨_, _, _, developers, devs, gen⟩ := generated_of_normalize h
  rw [gen.developers, developersOf, listOf_of_elems gen.developers_eq] at hmem
  exact normalizeDeveloper_gate ((List.forall₂_iff_zip.mp (mapM_eq_ok.mp gen.devs_eq)).2 hmem)

/-- The plan of some accepted configuration has `line` for a developer whose
generated gate is `gate`. -/
def Planned (line : String) (gate : Val) : Prop :=
  ∃ (env : ClientEnv) (client : ClientFacts) (doc : Doc) (resolved vars rdev vdev : Val),
    Accepts env doc resolved ∧ normalize client resolved = .ok vars ∧
      (rdev, vdev) ∈ (developersOf resolved).zip (listOf (vars.get "devbox_developers")) ∧
      heavyJobsLine rdev (hostGate resolved) = .ok line ∧ vdev.get "heavy_job_gate" = gate

theorem gate_parsed {gate : Val} (h : gate.parsed = true) :
    (specWith [] [("heavy_job_gate", gate)]).parsed = true := by
  have hkeys : ["config_version", "platform", "operator", "network", "container",
      "developers"].Nodup := by decide
  have hbase : ∀ p ∈ baseSpec, p.2.parsed = true := by decide +kernel
  have hfields : ["user", "login_ssh_keys", "heavy_job_gate"].Nodup := by decide
  refine Val.parsed_obj.mpr ⟨hkeys, ?_⟩
  refine Fields.forall_merge (P := fun v ↦ v.parsed = true)
    (Fields.forall_merge (P := fun v ↦ v.parsed = true) hbase ?_)
    fun p hp ↦ absurd hp List.not_mem_nil
  refine List.forall_mem_singleton.mpr (Val.parsed_arr.mpr (List.forall_mem_singleton.mpr ?_))
  refine Val.parsed_obj.mpr ⟨hfields, ?_⟩
  simp only [List.cons_append, List.nil_append, List.forall_mem_cons]
  exact ⟨rfl, rfl, h, fun p hp ↦ absurd hp List.not_mem_nil⟩

/-- Every gate that is admitted is some developer's. -/
theorem accepted_gate {gate : Val} (hparsed : gate.parsed = true)
    (hpasses : (validateHeavyJobGate gate "developers[0].heavy_job_gate").Passes) :
    ∃ resolved vars rdev vdev,
      Accepts homeEnv ⟨specWith [] [("heavy_job_gate", gate)], gate_parsed hparsed⟩ resolved ∧
      normalize noClient resolved = .ok vars ∧
      (rdev, vdev) ∈ (developersOf resolved).zip (listOf (vars.get "devbox_developers")) ∧
      hostGate resolved = .undef ∧ rdev.get "heavy_job_gate" = gate :=
  ⟨_, _, _, _, accepts_iff.mpr ⟨validateStructure_gate hpasses, ⟨[], rfl, rfl⟩, [], rfl, rfl⟩,
    rfl, List.mem_singleton_self _, rfl, rfl⟩

/-- Its line, where it is on. -/
theorem line_of_gate {dev gate : Val} {line : String} (path : String)
    (hparsed : gate.parsed = true) (hpasses : (validateHeavyJobGate gate path).Passes)
    (hgate : dev.get "heavy_job_gate" = gate)
    (hon : (gateField .undef gate "enabled" true).truthy = true)
    (hline : line.toList = ['·'].intercalate (printed .undef gate).segments) :
    heavyJobsLine dev .undef = .ok line := by
  have hundef : GateBlock .undef := @gateBlock_of_passes .undef path (.inl rfl) ⟨[], rfl, rfl⟩
  have hblock := gateBlock_of_passes (.inr hparsed) hpasses
  subst hgate
  obtain ⟨line', hline', htext⟩ := heavyJobsLine_printed hundef hblock hon
  rw [hline', String.toList_inj.mp (htext.trans hline.symm)]

theorem planned_of_passes {gate : Val} {line : String} (hparsed : gate.parsed = true)
    (hpasses : (validateHeavyJobGate gate "developers[0].heavy_job_gate").Passes)
    (hon : (gateField .undef gate "enabled" true).truthy = true)
    (hline : line.toList = ['·'].intercalate (printed .undef gate).segments) :
    Planned line (developerGate .undef gate) := by
  obtain ⟨resolved, vars, rdev, vdev, haccepts, hvars, hmem, hhost, hgate⟩ :=
    accepted_gate hparsed hpasses
  refine ⟨homeEnv, noClient, _, resolved, vars, rdev, vdev, haccepts, hvars, hmem, ?_, ?_⟩
  · rw [hhost]
    exact line_of_gate _ hparsed hpasses hgate hon hline
  · rw [generated_gate hvars hmem, hhost, hgate]

theorem planned_counterpart {host developer : Val} {line : String} (limit : String)
    (hhost : GateBlock host) (hdev : GateBlock developer) (hlimit : isDirectSize (.str limit) = true)
    (hnone : ¬(consultedOverall host developer).truthy = true)
    (hline : line.toList = ['·'].intercalate (printed host developer).segments) :
    Planned line (developerGate .undef (counterpart host developer limit)) :=
  planned_of_passes (counterpart_parsed hhost hdev limit)
    (counterpart_passes hhost hdev hlimit _) rfl
    (by rw [printed_counterpart hhost hdev limit hnone, hline])

theorem counterpart_build {host developer : Val} (limit : String) :
    ((developerGate .undef (counterpart host developer limit)).get
      "memory_max_by_category").get "build" = canonicalOrSame (.str limit) := by
  rw [normalize_stage, gate_category (by decide)]
  rfl

/-- Of every developer of every accepted configuration whose gate is on. -/
theorem plan_states_gate_iff {env : ClientEnv} {client : ClientFacts} {doc : Doc}
    {resolved vars rdev vdev : Val} {line : String} (h : Accepts env doc resolved)
    (hvars : normalize client resolved = .ok vars)
    (hmem : (rdev, vdev) ∈ (developersOf resolved).zip (listOf (vars.get "devbox_developers")))
    (hline : heavyJobsLine rdev (hostGate resolved) = .ok line) (hon : line ≠ "off") :
    (∀ gate, Planned line gate → gate = vdev.get "heavy_job_gate") ↔
      ∃ s, s ≠ "" ∧
        consultedOverall (hostGate resolved) (rdev.get "heavy_job_gate") = .str s := by
  have henabled : ∀ {dev host : Val}, heavyJobsLine dev host = .ok line →
      (gateField host (dev.get "heavy_job_gate") "enabled" true).truthy = true := by
    intro dev host hsome
    by_contra hoff
    rw [heavyJobsLine_off hoff] at hsome
    exact hon (Except.ok.inj hsome).symm
  have htext : ∀ {dev host : Val}, GateBlock host → GateBlock (dev.get "heavy_job_gate") →
      heavyJobsLine dev host = .ok line →
      line.toList = ['·'].intercalate (printed host (dev.get "heavy_job_gate")).segments := by
    intro dev host hh hd hsome
    obtain ⟨line', hline', htext⟩ := heavyJobsLine_printed hh hd (henabled hsome)
    rwa [Except.ok.inj (hsome.symm.trans hline')]
  obtain ⟨hhost, hdev⟩ := accepted_blocks h (List.of_mem_zip hmem).1
  constructor
  · intro hall
    by_contra hnone
    have hnone : ¬(consultedOverall (hostGate resolved) (rdev.get "heavy_job_gate")).truthy = true := by
      intro htruthy
      rcases isLimit_orElse hdev.overall hhost.overall with hundef | ⟨s, _, hs, _⟩
      · rw [consultedOverall, hundef] at htruthy
        cases htruthy
      · refine hnone ⟨s, ?_, hs⟩
        rintro rfl
        rw [consultedOverall, hs] at htruthy
        cases htruthy
    have hone := hall _ (planned_counterpart "1G" hhost hdev (by decide +kernel) hnone
      (htext hhost hdev hline))
    have htwo := hall _ (planned_counterpart "2G" hhost hdev (by decide +kernel) hnone
      (htext hhost hdev hline))
    have hbuild := congrArg (fun v ↦ (v.get "memory_max_by_category").get "build")
      (hone.trans htwo.symm)
    simp only [counterpart_build] at hbuild
    rw [canonicalOrSame_str (c := "1G") (by decide +kernel),
      canonicalOrSame_str (c := "2G") (by decide +kernel)] at hbuild
    exact absurd (Val.str.inj hbuild) (by decide)
  · rintro ⟨s, hne, hs⟩ gate ⟨env', client', doc', resolved', vars', rdev', vdev', h', hvars',
      hmem', hline', rfl⟩
    obtain ⟨hhost', hdev'⟩ := accepted_blocks h' (List.of_mem_zip hmem').1
    have hprinted := Printed.line_inj (printed_plain hhost hdev) (printed_plain hhost' hdev')
      ((htext hhost hdev hline).symm.trans (htext hhost' hdev' hline'))
    have hstated : (consultedOverall (hostGate resolved) (rdev.get "heavy_job_gate")).truthy = true := by
      rw [hs]
      simpa [Val.truthy] using hne
    rw [generated_gate hvars hmem, generated_gate hvars' hmem']
    exact (gate_of_printed hhost hdev hhost' hdev' (henabled hline) (henabled hline') hstated
      hprinted).symm

/-- A line as the plan prints it is not the one of a gate that is off. -/
theorem segments_ne_off (p : Printed) :
    String.ofList (['·'].intercalate p.segments) ≠ "off" := by
  intro h
  have htext := congrArg String.toList h
  rw [String.toList_ofList, Printed.segments, List.intercalate_cons_cons] at htext
  exact absurd (List.cons.inj (List.cons.inj htext).2).1 (by decide)

/-- A gate without an overall limit and one with the empty limit print the same. -/
theorem silent_limit : ¬∀ line gate gate', line ≠ "off" → Planned line gate → Planned line gate' →
    gate = gate' := by
  intro h
  have hsame := h _ _ _ (segments_ne_off (printed .undef (.obj [])))
    (@planned_of_passes (.obj []) _ rfl ⟨[], rfl, rfl⟩ rfl String.toList_ofList)
    (@planned_of_passes (.obj [("memory_max", "")]) _ rfl ⟨[], rfl, rfl⟩ rfl
      String.toList_ofList)
  have hmemory := congrArg (fun v ↦ v.get "memory_max") hsame
  rw [normalize_stage, normalize_stage] at hmemory
  have hdefault : (normalizeHeavyJobGate .undef (.obj [])).get "memory_max" = .str "8G" :=
    gate_memory_max (s := "8G") rfl (by decide +kernel)
  have hempty : (normalizeHeavyJobGate .undef (.obj [("memory_max", "")])).get "memory_max" =
      .str "" := gate_memory_max (s := "") rfl (by decide +kernel)
  rw [hdefault, hempty] at hmemory
  exact absurd (Val.str.inj hmemory) (by decide)

/-- The plan of a stated limit shows the whole gate. -/
theorem stated_limit : ∃ line gate, line ≠ "off" ∧ Planned line gate ∧
    ∀ gate', Planned line gate' → gate' = gate := by
  obtain ⟨resolved, vars, rdev, vdev, haccepts, hvars, hmem, hhost, hgate⟩ :=
    @accepted_gate (.obj [("memory_max", "12G")]) rfl ⟨[], rfl, rfl⟩
  have hline := line_of_gate "" rfl ⟨[], rfl, rfl⟩ hgate rfl String.toList_ofList
  rw [← hhost] at hline
  refine ⟨_, _, segments_ne_off _, ⟨_, _, _, _, _, _, _, haccepts, hvars, hmem, hline, rfl⟩,
    (plan_states_gate_iff haccepts hvars hmem hline (segments_ne_off _)).mpr ⟨"12G", by decide, ?_⟩⟩
  rw [hhost, hgate]
  rfl

end RemoteDevbox.Spec
