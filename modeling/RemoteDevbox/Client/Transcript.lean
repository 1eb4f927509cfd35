import RemoteDevbox.Lib.Js.RegExp
import RemoteDevbox.Lib.Lists
import Mathlib.Data.List.Sort

namespace RemoteDevbox.Client.Transcript

open Js Substitution

/-!
# Rewriting the paths of a transcript

The mappings that `push` and `pull` build from two roots, the `--map` options and
the home remap, and the one pass that applies them.
-/

/-- A text and what it is rewritten to. -/
abbrev Mapping := Rule CodeUnit

def isAlphanumeric (c : CodeUnit) : Bool :=
  (unit 'a' ≤ c && c ≤ unit 'z') || (unit 'A' ≤ c && c ≤ unit 'Z') || (unit '0' ≤ c && c ≤ unit '9')

def encodeUnit (c : CodeUnit) : CodeUnit := if isAlphanumeric c then c else unit '-'

def encodeCwd (cwd : Units) : Units := cwd.map encodeUnit

structure MappingOpts where
  map : List Units := []
  homeFrom : Option Units := none
  homeTo : Option Units := none

/-- The text before the first `=` of an option. -/
def oldOf (m : Units) : Units := m.takeWhile (· != unit '=')

/-- `OLD=NEW`, with both sides there; the commands give up on any other option. -/
def readMap (m : Units) : Option Mapping :=
  match oldOf m, m.dropWhile (· != unit '=') with
  | old@(_ :: _), _ :: new@(_ :: _) => some ⟨old, new⟩
  | _, _ => none

/-- `/^(\/Users\/[^/]+|\/home\/[^/]+)/` -/
def homePrefix (cwd : Units) : Option Units :=
  [units "/Users/", units "/home/"].findSome? fun head ↦
    if head.isPrefixOf cwd then
      match (cwd.drop head.length).takeWhile (· != unit '/') with
      | [] => none
      | name => some (head ++ name)
    else none

/-- The home remap, when both ends are stated and the source is under a home. -/
def homeMapping (opts : MappingOpts) : Option Mapping := do
  let homeFrom ← opts.homeFrom
  let homeTo ← opts.homeTo
  if homeFrom = [] ∨ homeTo = [] then none
  else
    let u ← homePrefix homeFrom
    return ⟨u, homeTo⟩

/-- A mapping and its dash-encoded variant, when there is anything to encode. -/
def withEncoded (m : Mapping) : List Mapping :=
  if encodeCwd m.source = m.source then [m]
  else [m, ⟨encodeCwd m.source, encodeCwd m.dest⟩]

/-- The first mapping of each source, those already seen left out. -/
def firstOf (seen : List Units) : List Mapping → List Mapping
  | [] => []
  | m :: ms => if m.source ∈ seen then firstOf seen ms else m :: firstOf (m.source :: seen) ms

def longerFirst (a b : Mapping) : Prop := b.source.length ≤ a.source.length

instance : DecidableRel longerFirst := fun _ _ ↦ inferInstanceAs (Decidable (_ ≤ _))

def allMappings (sourceRoot destRoot : Units) (opts : MappingOpts) : Option (List Mapping) := do
  let maps ← opts.map.mapM readMap
  return (⟨sourceRoot, destRoot⟩ :: maps ++ (homeMapping opts).toList).flatMap withEncoded

def buildMappings (sourceRoot destRoot : Units) (opts : MappingOpts) : Option (List Mapping) := do
  let all ← allMappings sourceRoot destRoot opts
  return (firstOf [] all).insertionSort longerFirst

/-- `s.replace(/[.*+?^${}()|[\]\\]/g, "\\$&")` -/
def escapeRegex (s : Units) : Units :=
  s.flatMap fun c ↦ if c ∈ RegExp.SYNTAX then [unit '\\', c] else [c]

/-- `new Map(mappings.map((m) => [m.from, m.to])).get(m) ?? m`; a later entry wins. -/
def lookup (mappings : List Mapping) (m : Units) : Units :=
  match mappings.reverse.find? (·.source == m) with
  | some found => found.dest
  | none => m

def applyMappings (text : Units) (mappings : List Mapping) : Units :=
  if mappings = [] then text
  else
    let pattern := [unit '|'].intercalate (mappings.map (escapeRegex ·.source))
    match RegExp.alternatives [] pattern with
    | some alts => RegExp.replace alts (lookup mappings) text
    -- `alternatives_pattern`: the pattern is always one of literal alternatives
    | none => text

/-! ## The pattern -/

theorem alternatives_escape (current s rest : Units) :
    RegExp.alternatives current (escapeRegex s ++ rest) =
      RegExp.alternatives (current ++ s) rest := by
  induction s generalizing current with
  | nil => simp [escapeRegex]
  | cons c s ih =>
      have hcons : escapeRegex (c :: s) ++ rest =
          (if c ∈ RegExp.SYNTAX then [unit '\\', c] else [c]) ++ (escapeRegex s ++ rest) := by
        rw [escapeRegex, List.flatMap_cons, List.append_assoc]
        rfl
      have happend : current ++ c :: s = (current ++ [c]) ++ s := by simp
      rw [hcons, happend, ← ih]
      by_cases hc : c ∈ RegExp.SYNTAX
      · rw [if_pos hc]
        exact RegExp.alternatives_escaped hc _ _
      · rw [if_neg hc]
        exact RegExp.alternatives_plain hc _ _

theorem alternatives_pattern (s : Units) (ss : List Units) :
    RegExp.alternatives [] ([unit '|'].intercalate ((s :: ss).map escapeRegex)) =
      some (s :: ss) := by
  induction ss generalizing s with
  | nil =>
      have h := alternatives_escape [] s []
      simpa [RegExp.alternatives, List.intercalate] using h
  | cons s' ss ih =>
      have hsplit : [unit '|'].intercalate ((s :: s' :: ss).map escapeRegex) =
          escapeRegex s ++ (unit '|' :: [unit '|'].intercalate ((s' :: ss).map escapeRegex)) := by
        simp [List.intercalate]
      rw [hsplit, alternatives_escape, RegExp.alternatives_bar, ih]
      rfl

theorem lookup_of_mem {ms : List Mapping} (hms : Functional ms) {m : Mapping} (hm : m ∈ ms) :
    lookup ms m.source = m.dest := by
  have hsome : (ms.reverse.find? (·.source == m.source)).isSome = true := by
    rw [List.find?_isSome]
    exact ⟨m, List.mem_reverse.mpr hm, beq_self_eq_true _⟩
  obtain ⟨found, hfound⟩ := Option.isSome_iff_exists.mp hsome
  have hsource := List.find?_some hfound
  have hmem := List.mem_reverse.mp (List.mem_of_find?_eq_some hfound)
  obtain rfl := hms.inj found hmem m hm (eq_of_beq hsource)
  rw [lookup, hfound]

/-- The single pass is leftmost-longest substitution. -/
theorem substituted_apply {ms : List Mapping} (hms : Functional ms)
    (hsorted : ms.Pairwise longerFirst) (text : Units) :
    Substituted ms text (applyMappings text ms) := by
  cases ms with
  | nil => exact substituted_self (by simp)
  | cons m ms =>
      have hpattern := alternatives_pattern m.source (ms.map (·.source))
      have hmap : (m.source :: ms.map (·.source)).map escapeRegex =
          (m :: ms).map (escapeRegex ·.source) := by simp
      rw [hmap] at hpattern
      simp only [applyMappings, if_neg (List.cons_ne_nil m ms), hpattern]
      exact RegExp.substituted_replace hms hsorted (fun r hr ↦ lookup_of_mem hms hr) text

/-! ## The list of mappings -/

theorem mem_firstOf {m : Mapping} {seen : List Units} {ms : List Mapping} :
    m ∈ firstOf seen ms ↔ m.source ∉ seen ∧ ms.find? (·.source == m.source) = some m := by
  induction ms generalizing seen with
  | nil => simp [firstOf]
  | cons m' ms ih =>
      rw [firstOf]
      by_cases heq : m'.source = m.source
      · have hfind : (m' :: ms).find? (·.source == m.source) = some m' := by simp [heq]
        rw [hfind]
        by_cases hseen : m'.source ∈ seen
        · rw [if_pos hseen, ih]
          refine iff_of_false (fun h ↦ h.1 (heq ▸ hseen)) (fun h ↦ h.1 (heq ▸ hseen))
        · rw [if_neg hseen, List.mem_cons, ih, ← heq]
          simp [hseen, eq_comm]
      · have hfind : (m' :: ms).find? (·.source == m.source) =
            ms.find? (·.source == m.source) := by simp [heq]
        rw [hfind]
        by_cases hseen : m'.source ∈ seen
        · rw [if_pos hseen, ih]
        · have hne : m ≠ m' := fun h ↦ heq (h ▸ rfl)
          rw [if_neg hseen, List.mem_cons, ih, List.mem_cons, not_or]
          simp only [hne, false_or]
          exact and_congr_left fun _ ↦ and_iff_right (fun h ↦ heq h.symm)

theorem functional_firstOf {ms : List Mapping} (hms : ∀ m ∈ ms, m.source ≠ []) :
    Functional ((firstOf [] ms).insertionSort longerFirst) := by
  constructor
  · intro m hm m' hm' heq
    have hfirst := (mem_firstOf.mp ((List.mem_insertionSort _).mp hm)).2
    have hfirst' := (mem_firstOf.mp ((List.mem_insertionSort _).mp hm')).2
    rw [heq, hfirst'] at hfirst
    exact (Option.some.inj hfirst).symm
  · intro m hm
    have hfirst := (mem_firstOf.mp ((List.mem_insertionSort _).mp hm)).2
    exact hms m (List.mem_of_find?_eq_some hfirst)

instance : Std.Total longerFirst := ⟨fun a b ↦ le_total b.source.length a.source.length⟩

instance : IsTrans Mapping longerFirst := ⟨fun _ _ _ hab hbc ↦ Nat.le_trans hbc hab⟩

theorem sorted_build {ms : List Mapping} :
    ((firstOf [] ms).insertionSort longerFirst).Pairwise longerFirst :=
  List.pairwise_insertionSort longerFirst _

theorem encodeUnit_idem (c : CodeUnit) : encodeUnit (encodeUnit c) = encodeUnit c := by
  have hdash : encodeUnit (unit '-') = unit '-' := by decide
  by_cases hc : isAlphanumeric c = true
  · have heq : encodeUnit c = c := by rw [encodeUnit, if_pos hc]
    rw [heq, heq]
  · have heq : encodeUnit c = unit '-' := by rw [encodeUnit, if_neg hc]
    rw [heq, hdash]

theorem encodeCwd_idem (s : Units) : encodeCwd (encodeCwd s) = encodeCwd s := by
  rw [encodeCwd, encodeCwd, List.map_map]
  exact List.map_congr_left fun c _ ↦ encodeUnit_idem c

theorem encodeCwd_ne_nil {s : Units} : encodeCwd s ≠ [] ↔ s ≠ [] := by simp [encodeCwd]

@[simp] theorem length_encodeCwd (s : Units) : (encodeCwd s).length = s.length :=
  List.length_map ..

/-- Both variants of a mapping have the same encoded source. -/
theorem encodeCwd_withEncoded {m m' : Mapping} (h : m' ∈ withEncoded m) :
    encodeCwd m'.source = encodeCwd m.source := by
  unfold withEncoded at h
  split at h
  · rw [List.mem_singleton.mp h]
  · rcases List.mem_pair.mp h with rfl | rfl
    · rfl
    · exact encodeCwd_idem _

theorem readMap_eq_some {s : Units} {m : Mapping} (h : readMap s = some m) :
    m.source = oldOf s ∧ m.source ≠ [] := by
  unfold readMap at h
  split at h
  · rename_i hold _
    obtain rfl := Option.some.inj h
    exact ⟨hold.symm, by simp⟩
  · cases h

theorem homePrefix_ne_nil {cwd u : Units} (h : homePrefix cwd = some u) : u ≠ [] := by
  obtain ⟨head, _, hhead⟩ := List.exists_of_findSome?_eq_some h
  split at hhead
  · split at hhead
    · cases hhead
    · rename_i hne
      rw [← Option.some.inj hhead]
      exact List.append_ne_nil_of_right_ne_nil _ hne
  · cases hhead

theorem homeMapping_ne_nil {opts : MappingOpts} {m : Mapping} (h : homeMapping opts = some m) :
    m.source ≠ [] := by
  simp only [homeMapping, Option.bind_eq_bind, Option.bind_eq_some_iff] at h
  obtain ⟨_, _, _, _, h⟩ := h
  split at h
  · cases h
  · obtain ⟨u, hu, hm⟩ := Option.bind_eq_some_iff.mp h
    rw [← Option.some.inj hm]
    exact homePrefix_ne_nil hu

section Build

variable {sourceRoot destRoot : Units} {opts : MappingOpts}

theorem source_ne_nil (hroot : sourceRoot ≠ []) {all : List Mapping}
    (h : allMappings sourceRoot destRoot opts = some all) : ∀ m ∈ all, m.source ≠ [] := by
  obtain ⟨maps, hmaps, hall⟩ := Option.bind_eq_some_iff.mp h
  obtain rfl := Option.some.inj hall
  intro m' hm'
  obtain ⟨m, hm, hmem⟩ := List.mem_flatMap.mp hm'
  have hne : m.source ≠ [] := by
    simp only [List.cons_append, List.mem_cons, List.mem_append, Option.mem_toList] at hm
    rcases hm with rfl | hm | hm
    · exact hroot
    · obtain ⟨s, _, hs⟩ := forall₂_exists_left (mapM_option_eq_some.mp hmaps) hm
      exact (readMap_eq_some hs).2
    · exact homeMapping_ne_nil hm
  rw [← encodeCwd_ne_nil, encodeCwd_withEncoded hmem, encodeCwd_ne_nil]
  exact hne

theorem functional_buildMappings (hroot : sourceRoot ≠ []) {ms : List Mapping}
    (h : buildMappings sourceRoot destRoot opts = some ms) :
    Functional ms ∧ ms.Pairwise longerFirst := by
  obtain ⟨all, hall, hms⟩ := Option.bind_eq_some_iff.mp h
  obtain rfl := Option.some.inj hms
  exact ⟨functional_firstOf (source_ne_nil hroot hall), sorted_build⟩

end Build

/-! ## The order of the options -/

section Order

/-- The encoded form of the text that an option replaces. -/
def encodedOld (s : Units) : Units := encodeCwd (oldOf s)

/-- Both variants of a mapping encode alike. -/
theorem encodeCwd_of_find {m found : Mapping} {k : Units}
    (h : (withEncoded m).find? (·.source == k) = some found) : encodeCwd m.source = encodeCwd k := by
  have hfound : (found.source == k) = true :=
    @List.find?_some _ (fun m : Mapping ↦ m.source == k) _ _ h
  rw [← eq_of_beq hfound, encodeCwd_withEncoded (List.mem_of_find?_eq_some h)]

theorem find_flatMap_iff {maps : List Mapping} (hnodup : (maps.map (encodeCwd ·.source)).Nodup)
    {k : Units} {m : Mapping} :
    (maps.flatMap withEncoded).find? (·.source == k) = some m ↔
      ∃ m' ∈ maps, (withEncoded m').find? (·.source == k) = some m := by
  induction maps with
  | nil => simp
  | cons m₀ maps ih =>
      obtain ⟨hfresh, hnodup⟩ := List.nodup_cons.mp hnodup
      rw [List.flatMap_cons, List.find?_append]
      cases hfound : (withEncoded m₀).find? (·.source == k) with
      | none =>
          simp only [Option.none_or, ih hnodup, List.mem_cons, exists_eq_or_imp, hfound,
            reduceCtorEq, false_or]
      | some found =>
          simp only [Option.some_or, List.mem_cons, exists_eq_or_imp, hfound]
          refine ⟨.inl, fun h ↦ h.resolve_right ?_⟩
          rintro ⟨m', hm', hsome⟩
          refine hfresh (List.mem_map.mpr ⟨m', hm', ?_⟩)
          exact (encodeCwd_of_find hsome).trans (encodeCwd_of_find hfound).symm

variable {sourceRoot destRoot : Units} {opts : MappingOpts}

/-- The mappings of options listed in another order. -/
theorem buildMappings_perm {map' : List Units} (hperm : opts.map.Perm map')
    (hnodup : (opts.map.map encodedOld).Nodup) {ms : List Mapping}
    (h : buildMappings sourceRoot destRoot opts = some ms) :
    ∃ ms', buildMappings sourceRoot destRoot { opts with map := map' } = some ms' ∧
      ∀ m, m ∈ ms ↔ m ∈ ms' := by
  obtain ⟨all, hall, hms⟩ := Option.bind_eq_some_iff.mp h
  obtain ⟨maps, hmaps, hall⟩ := Option.bind_eq_some_iff.mp hall
  obtain ⟨maps', hmaps', hperm'⟩ := mapM_option_perm hperm hmaps
  obtain rfl := Option.some.inj hall
  obtain rfl := Option.some.inj hms
  have hencoded : ∀ {ss : List Units} {ms : List Mapping}, ss.mapM readMap = some ms →
      ms.map (encodeCwd ·.source) = ss.map encodedOld := by
    intro ss ms hss
    refine (map_eq_of_forall₂ (mapM_option_eq_some.mp hss) fun s m hs ↦ ?_).symm
    rw [encodedOld, (readMap_eq_some hs).1]
  have hdistinct : (maps.map (encodeCwd ·.source)).Nodup := by rwa [hencoded hmaps]
  have hdistinct' : (maps'.map (encodeCwd ·.source)).Nodup :=
    (hperm'.map _).nodup_iff.mp hdistinct
  have hfind : ∀ k : Units, (maps.flatMap withEncoded).find? (·.source == k) =
      (maps'.flatMap withEncoded).find? (·.source == k) := by
    intro k
    refine Option.ext fun m ↦ ?_
    rw [find_flatMap_iff hdistinct, find_flatMap_iff hdistinct']
    exact exists_congr fun m' ↦ and_congr_left' hperm'.mem_iff
  refine ⟨_, by rw [buildMappings, allMappings, hmaps']; rfl, fun m ↦ ?_⟩
  rw [List.mem_insertionSort, List.mem_insertionSort, mem_firstOf, mem_firstOf]
  simp only [List.cons_append, List.flatMap_cons, List.flatMap_append, List.find?_append, hfind]
  rfl

end Order

/-! ## The rewriting -/

/-- What `buildMappings` lists is applied as leftmost-longest substitution, and its
outcome does not depend on the order of options that encode differently. -/
theorem rewriting_is_substitution (sourceRoot destRoot : Units) (opts : MappingOpts)
    (hroot : sourceRoot ≠ []) :
    (∀ ms, buildMappings sourceRoot destRoot opts = some ms →
      ∀ text out, Substituted ms text out ↔ out = applyMappings text ms) ∧
    ∀ map', opts.map.Perm map' → (opts.map.map encodedOld).Nodup → ∀ text,
      (buildMappings sourceRoot destRoot opts).map (applyMappings text) =
        (buildMappings sourceRoot destRoot { opts with map := map' }).map (applyMappings text) := by
  constructor
  · intro ms hms text out
    obtain ⟨hfunctional, hsorted⟩ := functional_buildMappings hroot hms
    have happlied := substituted_apply hfunctional hsorted text
    constructor
    · exact fun hout ↦ hout.unique hfunctional happlied
    · rintro rfl
      exact happlied
  · intro map' hperm hnodup text
    cases hms : buildMappings sourceRoot destRoot opts with
    | none =>
        cases hms' : buildMappings sourceRoot destRoot { opts with map := map' } with
        | none => rfl
        | some ms' =>
            have hnodup' : (map'.map encodedOld).Nodup := (hperm.map _).nodup_iff.mp hnodup
            obtain ⟨ms, hback, _⟩ := buildMappings_perm hperm.symm hnodup' hms'
            rw [hms] at hback
            cases hback
    | some ms =>
        obtain ⟨ms', hms', hmem⟩ := buildMappings_perm hperm hnodup hms
        obtain ⟨hfunctional, hsorted⟩ := functional_buildMappings hroot hms
        obtain ⟨hfunctional', hsorted'⟩ := functional_buildMappings hroot hms'
        have happlied := (substituted_apply hfunctional hsorted text).of_mem_iff hmem
        rw [hms', Option.map_some, Option.map_some,
          happlied.unique hfunctional' (substituted_apply hfunctional' hsorted' text)]

/-- A root with two options, one of them nested in it. -/
theorem nested_options_rewritten :
    units "/x" ≠ [] ∧ [units "/x/a=/z", units "/w=/x"].Nodup ∧
    (∀ text, (buildMappings (units "/x") (units "/y")
        { map := [units "/x/a=/z", units "/w=/x"] }).map (applyMappings text) =
      (buildMappings (units "/x") (units "/y")
        { map := [units "/w=/x", units "/x/a=/z"] }).map (applyMappings text)) ∧
    (buildMappings (units "/x") (units "/y") { map := [units "/x/a=/z", units "/w=/x"] }).map
      (applyMappings (units "/x/a/x/w")) = some (units "/z/y/x") := by
  refine ⟨by decide, by decide, ?_, by decide +kernel⟩
  exact (rewriting_is_substitution (units "/x") (units "/y")
    { map := [units "/x/a=/z", units "/w=/x"] } (by decide)).2 _ (List.Perm.swap ..) (by decide)

/-- Two options with different sources whose order matters: the encoded form of one
is the other. -/
theorem option_order_matters :
    ([units "a.b=X", units "a-b=Y"].map oldOf).Nodup ∧
    [units "a.b=X", units "a-b=Y"].Perm [units "a-b=Y", units "a.b=X"] ∧
    (buildMappings (units "/x") (units "/y") { map := [units "a.b=X", units "a-b=Y"] }).map
      (applyMappings (units "a-b")) = some (units "X") ∧
    (buildMappings (units "/x") (units "/y") { map := [units "a-b=Y", units "a.b=X"] }).map
      (applyMappings (units "a-b")) = some (units "Y") := by
  refine ⟨by decide, List.Perm.swap .., ?_, ?_⟩
  · decide +kernel
  · decide +kernel

end RemoteDevbox.Client.Transcript
