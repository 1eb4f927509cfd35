import RemoteDevbox.Client.Transcript

namespace RemoteDevbox.Client.Transcript

open Js Substitution

/-!
# A transcript that is pushed and pulled back

The mappings of the two directions are built separately. They undo each other for
the texts in which no box-side root comes about next to a replaced one.
-/

/-- The mappings of `push`. -/
def pushMappings (sourceCwd remoteRoot profile : Units) (remapHome : Bool) :
    Option (List Mapping) :=
  buildMappings sourceCwd remoteRoot
    { homeFrom := if remapHome then some sourceCwd else none
      homeTo := if remapHome then some (units "/home/" ++ profile) else none }

/-- The mappings of `pull`. -/
def pullMappings (boxRoot localCwd : Units) (remapHome : Bool) : Option (List Mapping) :=
  let clientHome := if remapHome then homePrefix localCwd else none
  buildMappings boxRoot localCwd
    { homeFrom := if remapHome then some boxRoot else none
      homeTo := clientHome }

/-! ## The mappings of two roots -/

theorem mem_withEncoded {m m' : Mapping} :
    m' ∈ withEncoded m ↔ m' = m ∨
      encodeCwd m.source ≠ m.source ∧ m' = ⟨encodeCwd m.source, encodeCwd m.dest⟩ := by
  unfold withEncoded
  split
  · rename_i heq
    simp [heq]
  · rename_i hne
    simp [hne]

theorem homePrefix_spec {cwd u : Units} (h : homePrefix cwd = some u) :
    u <+: cwd ∧ u.head? = some (unit '/') := by
  obtain ⟨head, hhead, hu⟩ := List.exists_of_findSome?_eq_some h
  have hslash : head ≠ [] ∧ head.head? = some (unit '/') := by
    simp only [List.mem_cons, List.not_mem_nil, or_false] at hhead
    rcases hhead with rfl | rfl <;> decide
  split at hu
  · rename_i hstarts
    split at hu
    · cases hu
    · rename_i name hname
      obtain rfl := Option.some.inj hu
      obtain ⟨rest, rfl⟩ := List.isPrefixOf_iff_prefix.mp hstarts
      rw [List.drop_left] at hname ⊢
      refine ⟨(List.prefix_append_right_inj _).mpr (List.takeWhile_prefix _), ?_⟩
      rw [List.head?_append, hslash.2]
      rfl
  · cases hu

theorem encodeCwd_ne_of_slash {s t : Units} (hs : s.head? = some (unit '/')) :
    s ≠ encodeCwd t := by
  rintro rfl
  cases t with
  | nil => cases hs
  | cons c t =>
      have hc : encodeUnit c = unit '/' := Option.some.inj hs
      by_cases halpha : isAlphanumeric c = true
      · rw [encodeUnit, if_pos halpha] at hc
        rw [hc] at halpha
        exact absurd halpha (by decide)
      · rw [encodeUnit, if_neg halpha] at hc
        exact absurd hc (by decide)

/-- What a list built from two roots and a home remap holds. -/
def rootPairs (sourceRoot destRoot : Units) (opts : MappingOpts) : List Mapping :=
  ⟨sourceRoot, destRoot⟩ :: (homeMapping opts).toList.filter (·.source ≠ sourceRoot)

theorem homeMapping_eq_some {opts : MappingOpts} {m : Mapping} :
    homeMapping opts = some m ↔ ∃ homeFrom homeTo u, opts.homeFrom = some homeFrom ∧
      opts.homeTo = some homeTo ∧ homeFrom ≠ [] ∧ homeTo ≠ [] ∧ homePrefix homeFrom = some u ∧
      m = ⟨u, homeTo⟩ := by
  simp only [homeMapping, Option.bind_eq_bind, Option.bind_eq_some_iff]
  constructor
  · rintro ⟨homeFrom, hfrom, homeTo, hto, h⟩
    split at h
    · cases h
    · rename_i hne
      obtain ⟨u, hu, hm⟩ := Option.bind_eq_some_iff.mp h
      exact ⟨homeFrom, homeTo, u, hfrom, hto, fun h ↦ hne (.inl h), fun h ↦ hne (.inr h), hu,
        (Option.some.inj hm).symm⟩
  · rintro ⟨homeFrom, homeTo, u, hfrom, hto, hne, hne', hu, rfl⟩
    refine ⟨homeFrom, hfrom, homeTo, hto, ?_⟩
    rw [if_neg (by simp [hne, hne']), hu]
    rfl

theorem firstOf_withEncoded (seen : List Units) (m : Mapping) (rest : List Mapping)
    (hfresh : m.source ∉ seen) (hfresh' : encodeCwd m.source ∉ seen) :
    firstOf seen (withEncoded m ++ rest) = withEncoded m ++
      firstOf ((withEncoded m).reverse.map (·.source) ++ seen) rest := by
  by_cases heq : encodeCwd m.source = m.source
  · simp [withEncoded, heq, firstOf, hfresh]
  · simp [withEncoded, heq, firstOf, hfresh, hfresh']

theorem firstOf_seen {seen : List Units} {ms : List Mapping} (h : ∀ m ∈ ms, m.source ∈ seen) :
    firstOf seen ms = [] := by
  induction ms with
  | nil => rfl
  | cons m ms ih =>
      rw [firstOf, if_pos (h m List.mem_cons_self), ih fun m' hm' ↦ h m' (List.mem_cons_of_mem _ hm')]

theorem mem_sources_withEncoded {m : Mapping} {k : Units} :
    k ∈ (withEncoded m).reverse.map (·.source) ↔ k = m.source ∨ k = encodeCwd m.source := by
  by_cases heq : encodeCwd m.source = m.source
  · simp [withEncoded, heq]
  · simp [withEncoded, heq, or_comm]

theorem mem_buildMappings {sourceRoot destRoot : Units} {opts : MappingOpts}
    (hmap : opts.map = []) (hfrom : ∀ f ∈ opts.homeFrom, f = sourceRoot) {ms : List Mapping}
    (h : buildMappings sourceRoot destRoot opts = some ms) (m : Mapping) :
    m ∈ ms ↔ m ∈ (rootPairs sourceRoot destRoot opts).flatMap withEncoded := by
  obtain ⟨all, hall, hms⟩ := Option.bind_eq_some_iff.mp h
  obtain rfl := Option.some.inj hms
  rw [allMappings, hmap] at hall
  obtain rfl := Option.some.inj hall
  rw [List.mem_insertionSort]
  have hroot := firstOf_withEncoded [] ⟨sourceRoot, destRoot⟩ ((homeMapping opts).toList.flatMap
    withEncoded) (List.not_mem_nil) (List.not_mem_nil)
  rw [List.append_nil] at hroot
  simp only [List.reverse_nil, List.cons_append, List.flatMap_cons, List.nil_append, rootPairs]
  rw [hroot]
  cases hhome : homeMapping opts with
  | none => simp [firstOf]
  | some home =>
      obtain ⟨f, homeTo, u, hf, _, _, _, hu, rfl⟩ := homeMapping_eq_some.mp hhome
      obtain rfl := hfrom f hf
      obtain ⟨hstarts, hslash⟩ := homePrefix_spec hu
      simp only [Option.toList_some, List.flatMap_cons, List.flatMap_nil, List.append_nil]
      by_cases heq : u = f
      · rw [firstOf_seen]
        · simp [heq]
        · intro m hm
          rw [mem_sources_withEncoded]
          rcases mem_withEncoded.mp hm with rfl | ⟨_, rfl⟩
          · exact .inl heq
          · exact .inr (congrArg encodeCwd heq)
      · have hslash' : f.head? = some (unit '/') := by
          obtain ⟨rest, rfl⟩ := hstarts
          rw [List.head?_append, hslash]
          rfl
        have hfresh : u ∉ (withEncoded ⟨f, destRoot⟩).reverse.map (·.source) := by
          rw [mem_sources_withEncoded]
          exact not_or.mpr ⟨heq, encodeCwd_ne_of_slash hslash⟩
        have hfresh' : encodeCwd u ∉ (withEncoded ⟨f, destRoot⟩).reverse.map (·.source) := by
          rw [mem_sources_withEncoded]
          refine not_or.mpr ⟨fun h ↦ encodeCwd_ne_of_slash hslash' h.symm, fun h ↦ heq ?_⟩
          refine hstarts.eq_of_length ?_
          rw [← length_encodeCwd u, h, length_encodeCwd]
        have hhomes := firstOf_withEncoded _ ⟨u, homeTo⟩ [] hfresh hfresh'
        rw [List.append_nil] at hhomes
        rw [hhomes]
        simp [firstOf, heq]

/-! ## The two directions -/

/-- Pairs of roots whose variants undo each other. -/
structure PairedRoots (forth back : List Mapping) : Prop where
  dest : ∀ q ∈ back, ∃ p ∈ forth, p.source = q.dest
  source : ∀ p ∈ forth, ∃ q ∈ back, q.source = p.dest
  length : ∀ p ∈ forth, ∀ q ∈ back, p.dest.length ≤ q.source.length →
    q.dest.length ≤ p.source.length →
      p.dest.length = q.source.length ∧ q.dest.length = p.source.length

/-- Encoding keeps lengths. -/
theorem lengths_withEncoded {m m' : Mapping} (h : m' ∈ withEncoded m) :
    m'.source.length = m.source.length ∧ m'.dest.length = m.dest.length := by
  rcases mem_withEncoded.mp h with rfl | ⟨_, rfl⟩ <;> simp

theorem exists_plain (m : Mapping) : ∃ m' ∈ withEncoded m, m'.source = m.source :=
  ⟨m, mem_withEncoded.mpr (.inl rfl), rfl⟩

theorem exists_encoded (m : Mapping) : ∃ m' ∈ withEncoded m, m'.source = encodeCwd m.source := by
  by_cases heq : encodeCwd m.source = m.source
  · exact ⟨m, mem_withEncoded.mpr (.inl rfl), heq.symm⟩
  · exact ⟨_, mem_withEncoded.mpr (.inr ⟨heq, rfl⟩), rfl⟩

/-- A variant of a root is replaced by a variant of the other one. -/
theorem exists_variant {m m' : Mapping} {ps : List Mapping} (h : m' ∈ withEncoded m)
    (hps : ∃ p ∈ ps, p.source = m.dest) :
    ∃ p ∈ ps.flatMap withEncoded, p.source = m'.dest := by
  obtain ⟨p, hp, hsource⟩ := hps
  rcases mem_withEncoded.mp h with rfl | ⟨_, rfl⟩
  · obtain ⟨p', hp', heq⟩ := exists_plain p
    exact ⟨p', List.mem_flatMap.mpr ⟨p, hp, hp'⟩, heq.trans hsource⟩
  · obtain ⟨p', hp', heq⟩ := exists_encoded p
    exact ⟨p', List.mem_flatMap.mpr ⟨p, hp, hp'⟩, heq.trans (congrArg encodeCwd hsource)⟩

theorem PairedRoots.paired {forth back : List Mapping} (h : PairedRoots forth back)
    {push pull : List Mapping} (hpush : ∀ m, m ∈ push ↔ m ∈ forth.flatMap withEncoded)
    (hpull : ∀ m, m ∈ pull ↔ m ∈ back.flatMap withEncoded) : Paired push pull := by
  constructor
  · intro q' hq'
    obtain ⟨q, hq, hmem⟩ := List.mem_flatMap.mp ((hpull q').mp hq')
    obtain ⟨p, hp, heq⟩ := exists_variant hmem (h.dest q hq)
    exact ⟨p, (hpush p).mpr hp, heq⟩
  · intro p' hp'
    obtain ⟨p, hp, hmem⟩ := List.mem_flatMap.mp ((hpush p').mp hp')
    obtain ⟨q, hq, heq⟩ := exists_variant hmem (h.source p hp)
    exact ⟨q, (hpull q).mpr hq, heq⟩
  · intro p' hp' q' hq' hdest hsource
    obtain ⟨p, hp, hmem⟩ := List.mem_flatMap.mp ((hpush p').mp hp')
    obtain ⟨q, hq, hmem'⟩ := List.mem_flatMap.mp ((hpull q').mp hq')
    obtain ⟨hp₁, hp₂⟩ := lengths_withEncoded hmem
    obtain ⟨hq₁, hq₂⟩ := lengths_withEncoded hmem'
    obtain ⟨hlen, hlen'⟩ := h.length p hp q hq
      (by rw [← hp₂, ← hq₁]; exact hdest.length_le) (by rw [← hq₂, ← hp₁]; exact hsource.length_le)
    have heq : p'.dest = q'.source := hdest.eq_of_length (by rw [hp₂, hq₁, hlen])
    have heq' : q'.dest = p'.source := hsource.eq_of_length (by rw [hq₂, hp₁, hlen'])
    cases q'
    exact congrArg₂ Rule.mk heq.symm heq'

/-- With the home remap on, the home that `push` maps to is the home that `pull` maps
from. -/
def HomesMatch (sourceCwd remoteRoot profile : Units) (remapHome : Bool) : Prop :=
  remapHome = true → (homePrefix sourceCwd).isSome = true →
    homePrefix remoteRoot = some (units "/home/" ++ profile)

section Directions

variable {sourceCwd remoteRoot profile : Units} {remapHome : Bool}

theorem mem_rootPairs {sourceRoot destRoot : Units} {opts : MappingOpts} {m : Mapping} :
    m ∈ rootPairs sourceRoot destRoot opts ↔ m = ⟨sourceRoot, destRoot⟩ ∨
      homeMapping opts = some m ∧ m.source ≠ sourceRoot := by
  rw [rootPairs, List.mem_cons, List.mem_filter, Option.mem_toList, decide_eq_true_iff]

theorem homePrefix_nonempty {cwd u : Units} (h : homePrefix cwd = some u) : cwd ≠ [] := by
  rintro rfl
  cases h

/-- The root pairs of `push`. -/
def pushRoots (sourceCwd remoteRoot profile : Units) (remapHome : Bool) : List Mapping :=
  rootPairs sourceCwd remoteRoot
    { homeFrom := if remapHome then some sourceCwd else none
      homeTo := if remapHome then some (units "/home/" ++ profile) else none }

/-- The root pairs of `pull`. -/
def pullRoots (boxRoot localCwd : Units) (remapHome : Bool) : List Mapping :=
  rootPairs boxRoot localCwd
    { homeFrom := if remapHome then some boxRoot else none
      homeTo := if remapHome then homePrefix localCwd else none }

theorem mem_pushRoots {m : Mapping} :
    m ∈ pushRoots sourceCwd remoteRoot profile remapHome ↔ m = ⟨sourceCwd, remoteRoot⟩ ∨
      remapHome = true ∧ m.source ≠ sourceCwd ∧ homePrefix sourceCwd = some m.source ∧
        m.dest = units "/home/" ++ profile := by
  rw [pushRoots, mem_rootPairs, homeMapping_eq_some]
  refine or_congr_right ?_
  have hslash : units "/home/" ≠ [] := by decide
  cases remapHome with
  | false => simp
  | true =>
      simp only [if_true, Option.some.injEq]
      constructor
      · rintro ⟨⟨_, _, u, rfl, rfl, _, _, hu, rfl⟩, hne⟩
        exact ⟨trivial, hne, hu, rfl⟩
      · rintro ⟨_, hne, hu, hdest⟩
        exact ⟨⟨_, _, m.source, rfl, rfl, homePrefix_nonempty hu,
          List.append_ne_nil_of_left_ne_nil hslash _, hu, by rw [← hdest]⟩, hne⟩

theorem mem_pullRoots {m : Mapping} :
    m ∈ pullRoots remoteRoot sourceCwd remapHome ↔ m = ⟨remoteRoot, sourceCwd⟩ ∨
      remapHome = true ∧ m.source ≠ remoteRoot ∧ homePrefix remoteRoot = some m.source ∧
        homePrefix sourceCwd = some m.dest := by
  rw [pullRoots, mem_rootPairs, homeMapping_eq_some]
  refine or_congr_right ?_
  cases remapHome with
  | false => simp
  | true =>
      simp only [if_true, Option.some.injEq]
      constructor
      · rintro ⟨⟨_, _, u, rfl, hto, _, _, hu, rfl⟩, hne⟩
        exact ⟨trivial, hne, hu, hto⟩
      · rintro ⟨_, hne, hu, hdest⟩
        have hhome : m.dest ≠ [] := homePrefix_ne_nil hdest
        exact ⟨⟨_, m.dest, m.source, rfl, hdest, homePrefix_nonempty hu, hhome, hu, rfl⟩, hne⟩

/-- A home is shorter than a root that lies below it. -/
theorem home_shorter {cwd u : Units} (h : homePrefix cwd = some u) (hne : u ≠ cwd) :
    u.length < cwd.length := by
  have hstarts := (homePrefix_spec h).1
  exact lt_of_le_of_ne hstarts.length_le fun heq ↦ hne (hstarts.eq_of_length heq)

theorem pairedRoots (h : HomesMatch sourceCwd remoteRoot profile remapHome) :
    PairedRoots (pushRoots sourceCwd remoteRoot profile remapHome)
      (pullRoots remoteRoot sourceCwd remapHome) := by
  constructor
  · intro q hq
    rcases mem_pullRoots.mp hq with rfl | ⟨hremap, _, _, hclient⟩
    · exact ⟨_, mem_pushRoots.mpr (.inl rfl), rfl⟩
    · by_cases heq : q.dest = sourceCwd
      · exact ⟨_, mem_pushRoots.mpr (.inl rfl), heq.symm⟩
      · exact ⟨⟨q.dest, units "/home/" ++ profile⟩,
          mem_pushRoots.mpr (.inr ⟨hremap, heq, hclient, rfl⟩), rfl⟩
  · intro p hp
    rcases mem_pushRoots.mp hp with rfl | ⟨hremap, _, hclient, hdest⟩
    · exact ⟨_, mem_pullRoots.mpr (.inl rfl), rfl⟩
    · have hbox := h hremap (by rw [hclient]; rfl)
      rw [← hdest] at hbox
      by_cases heq : p.dest = remoteRoot
      · exact ⟨_, mem_pullRoots.mpr (.inl rfl), heq.symm⟩
      · exact ⟨⟨p.dest, p.source⟩,
          mem_pullRoots.mpr (.inr ⟨hremap, heq, hbox, hclient⟩), rfl⟩
  · intro p hp q hq hle hle'
    rcases mem_pushRoots.mp hp with rfl | ⟨hremap, hne, hclient, hdest⟩
    · rcases mem_pullRoots.mp hq with rfl | ⟨_, hne, hbox, _⟩
      · exact ⟨rfl, rfl⟩
      · exact absurd hle (not_le_of_gt (home_shorter hbox hne))
    · rcases mem_pullRoots.mp hq with rfl | ⟨_, _, hbox, hclient'⟩
      · exact absurd hle' (not_le_of_gt (home_shorter hclient hne))
      · have hmatch := h hremap (by rw [hclient]; rfl)
        rw [hbox, ← hdest] at hmatch
        rw [hclient] at hclient'
        rw [Option.some.inj hmatch, Option.some.inj hclient']
        exact ⟨rfl, rfl⟩

/-! ## There and back -/

/-- Read from the left, the text has no place where a box-side source comes about
other than by the replacement of its own client-side one. -/
def ClearText (push pull : List Mapping) (text : Units) : Prop :=
  ∃ ps, Reads push ps ∧ original ps = text ∧ Clear pull ps

/-- A clear text comes back; where the homes match, only a clear one does. -/
theorem push_pull_restores (hsource : sourceCwd ≠ []) (hremote : remoteRoot ≠ [])
    {push pull : List Mapping}
    (hpush : pushMappings sourceCwd remoteRoot profile remapHome = some push)
    (hpull : pullMappings remoteRoot sourceCwd remapHome = some pull) (text : Units) :
    (ClearText push pull text → applyMappings (applyMappings text push) pull = text) ∧
      (HomesMatch sourceCwd remoteRoot profile remapHome →
        applyMappings (applyMappings text push) pull = text → ClearText push pull text) := by
  obtain ⟨hpushFunctional, hpushSorted⟩ := functional_buildMappings hsource hpush
  obtain ⟨hpullFunctional, hpullSorted⟩ := functional_buildMappings hremote hpull
  obtain ⟨ps, hps, rfl, hpushed⟩ := substituted_apply hpushFunctional hpushSorted text
  have hpulled := substituted_apply hpullFunctional hpullSorted (replaced ps)
  rw [← hpushed]
  constructor
  · rintro ⟨qs, hqs, heq, hclear⟩
    obtain rfl := hqs.unique hpushFunctional hps heq
    exact hpulled.unique hpullFunctional hclear.substituted
  · intro hmatch hrestored
    rw [hrestored] at hpulled
    refine ⟨ps, hps, rfl, clear_of_substituted hpushFunctional ?_ hps hpulled⟩
    refine (pairedRoots hmatch).paired (fun m ↦ ?_) (fun m ↦ ?_)
    · refine mem_buildMappings rfl (fun f hf ↦ ?_) hpush m
      cases remapHome with
      | false => cases hf
      | true => exact (Option.some.inj hf).symm
    · refine mem_buildMappings rfl (fun f hf ↦ ?_) hpull m
      cases remapHome with
      | false => cases hf
      | true => exact (Option.some.inj hf).symm

end Directions

/-- The box root that `push` takes by default is below the home it maps to. -/
theorem homesMatch_default {sourceCwd profile : Units} (hprofile : profile ≠ [])
    (hslash : unit '/' ∉ profile) (project : Units) (remapHome : Bool) :
    HomesMatch sourceCwd (units "/home/" ++ profile ++ units "/projects/" ++ project) profile
      remapHome := by
  intro _ _
  have hkept : ∀ c ∈ profile, (c != unit '/') = true := by
    intro c hc
    rw [bne_iff_ne]
    exact fun heq ↦ hslash (heq ▸ hc)
  have hrest : units "/projects/" ++ project = unit '/' :: (units "projects/" ++ project) := rfl
  have hname : (profile ++ (units "/projects/" ++ project)).takeWhile (· != unit '/') = profile := by
    rw [List.takeWhile_append_of_pos hkept, hrest, List.takeWhile_cons_of_neg (by simp),
      List.append_nil]
  have husers : (units "/Users/").isPrefixOf
      (units "/home/" ++ profile ++ units "/projects/" ++ project) = false := rfl
  have hhome : (units "/home/").isPrefixOf
      (units "/home/" ++ profile ++ units "/projects/" ++ project) = true := by
    rw [List.isPrefixOf_iff_prefix, List.append_assoc, List.append_assoc]
    exact List.prefix_append _ _
  have hdrop : (units "/home/" ++ profile ++ units "/projects/" ++ project).drop
      (units "/home/").length = profile ++ (units "/projects/" ++ project) := by
    rw [List.append_assoc, List.append_assoc, List.drop_left]
  simp only [homePrefix, List.findSome?_cons, husers, hhome, hdrop, hname, if_true]
  cases profile with
  | nil => exact absurd rfl hprofile
  | cons c profile => rfl

/-- A transcript of a project comes back, a path below the client home included. -/
theorem project_restored :
    units "/Users/ada/app" ≠ [] ∧ units "/home/dev/projects/app" ≠ [] ∧
    ∃ push pull,
      pushMappings (units "/Users/ada/app") (units "/home/dev/projects/app") (units "dev") true =
        some push ∧
      pullMappings (units "/home/dev/projects/app") (units "/Users/ada/app") true = some pull ∧
      HomesMatch (units "/Users/ada/app") (units "/home/dev/projects/app") (units "dev") true ∧
      ClearText push pull (units "cd /Users/ada/app; ls /Users/ada/.ssh -Users-ada-app") := by
  refine ⟨by decide, by decide, _, _, rfl, rfl, by unfold HomesMatch; decide +kernel, ?_⟩
  refine (push_pull_restores (by decide) (by decide) rfl rfl _).2
    (by unfold HomesMatch; decide +kernel) ?_
  decide +kernel

/-- A path below the client home becomes, with the home remapped, one below the box
root, and comes back as one below the client root. -/
theorem path_beside_root_not_restored :
    ∃ push pull,
      pushMappings (units "/Users/ada/Code/app") (units "/home/dev/projects/app") (units "dev")
        true = some push ∧
      pullMappings (units "/home/dev/projects/app") (units "/Users/ada/Code/app") true =
        some pull ∧
      (∀ q ∈ pull, ¬ q.source <:+: units "/Users/ada/projects/app/notes") ∧
      applyMappings (applyMappings (units "/Users/ada/projects/app/notes") push) pull =
        units "/Users/ada/Code/app/notes" ∧
      applyMappings (applyMappings (units "/Users/ada/projects/app/notes") push) pull ≠
        units "/Users/ada/projects/app/notes" := by
  refine ⟨_, _, rfl, rfl, ?_, ?_, ?_⟩
  · decide +kernel
  · decide +kernel
  · decide +kernel

end RemoteDevbox.Client.Transcript
