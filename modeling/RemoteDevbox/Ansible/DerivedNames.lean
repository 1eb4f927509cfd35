import RemoteDevbox.Ansible.FactsAccepted
import RemoteDevbox.Spec.Secrets

namespace RemoteDevbox.Ansible

open Js Client Spec

/-!
# Names that are derived for the whole box

A Remote Control unit is named after its agent, its account and its project, a
desktop's secret after its account. Both live in one namespace for all
developers.
-/

/-! ## The names -/

def resumeUnitOf (row : Val) : String :=
  "agent-rc-resume-" ++ (rcLabel row).1 ++ "-" ++ (rcLabel row).2 ++ ".service"

/-- The unit files that the role writes or removes. -/
def unitNames (vars : Val) : List String :=
  (rcRows vars).map rcUnitOf ++ (rcRows vars).map resumeUnitOf

def desktopUsers (vars : Val) : List Val :=
  (listOf (vars.get "devbox_developers")).filter fun dev ↦ truth ((dev.get "desktop").get "enabled")

def secretNames (vars : Val) : List String :=
  (desktopUsers vars).map fun dev ↦ rdpSecretName (textOf (dev.get "user"))

/-- No name is derived twice. -/
def NamesDistinct (vars : Val) : Prop := (unitNames vars).Nodup ∧ (secretNames vars).Nodup

/-! ## Joining with a hyphen -/

/-- Two joined names agree where the account of one ends in what the project of
the other starts with. -/
theorem hyphen_join_eq {u p w q : List Char} : u ++ '-' :: p = w ++ '-' :: q ↔
    (u = w ∧ p = q) ∨ (∃ s, w = u ++ '-' :: s ∧ p = s ++ '-' :: q) ∨
      ∃ s, u = w ++ '-' :: s ∧ q = s ++ '-' :: p := by
  constructor
  · intro h
    rcases List.append_eq_append_iff.mp h with ⟨s, rfl, hs⟩ | ⟨s, rfl, hs⟩
    · cases s with
      | nil => exact .inl ⟨by simp, by simpa using hs⟩
      | cons c s =>
          obtain ⟨rfl, rfl⟩ := List.cons_eq_cons.mp hs
          exact .inr (.inl ⟨s, rfl, rfl⟩)
    · cases s with
      | nil => exact .inl ⟨by simp, by simpa using hs.symm⟩
      | cons c s =>
          obtain ⟨rfl, rfl⟩ := List.cons_eq_cons.mp hs
          exact .inr (.inr ⟨s, rfl, rfl⟩)
  · rintro (⟨rfl, rfl⟩ | ⟨s, rfl, rfl⟩ | ⟨s, rfl, rfl⟩)
    · rfl
    · simp
    · simp

/-- The account of `t` is that of `r` and a part that the project of `r` starts with. -/
def Overlaps (r t : Val) : Prop :=
  ∃ s, textOf (t.get "user") = textOf (r.get "user") ++ "-" ++ s ∧
    textOf (r.get "project") = s ++ "-" ++ textOf (t.get "project")

def rcPair (row : Val) : String × String :=
  (textOf (row.get "user"), textOf (row.get "project"))

theorem overlaps_iff {r t : Val} : Overlaps r t ↔ ∃ s : List Char,
    (textOf (t.get "user")).toList = (textOf (r.get "user")).toList ++ '-' :: s ∧
      (textOf (r.get "project")).toList = s ++ '-' :: (textOf (t.get "project")).toList := by
  constructor
  · rintro ⟨s, huser, hproject⟩
    refine ⟨s.toList, ?_, ?_⟩
    · rw [huser]
      simp
    · rw [hproject]
      simp
  · rintro ⟨s, huser, hproject⟩
    refine ⟨String.ofList s, String.toList_inj.mp ?_, String.toList_inj.mp ?_⟩
    · simpa using huser
    · simpa using hproject

/-- Two rows have one label exactly where they are one pair or overlap. -/
theorem rcLabel_eq_iff {r t : Val} : rcLabel r = rcLabel t ↔
    textOf (r.get "agent") = textOf (t.get "agent") ∧
      (rcPair r = rcPair t ∨ Overlaps r t ∨ Overlaps t r) := by
  rw [rcLabel, rcLabel, Prod.mk.injEq, overlaps_iff, overlaps_iff, rcPair, rcPair, Prod.mk.injEq]
  refine and_congr_right fun _ ↦ ?_
  rw [← String.toList_inj, ← String.toList_inj, ← String.toList_inj]
  simpa using hyphen_join_eq

/-! ## One row for each pair -/

def pairOf (row : Val) : Val × Val := (row.get "user", row.get "project")

/-- The rows of one developer, in the order of its projects. -/
theorem rcUnitRows_pairs {dev : Val} {rows : List Val} (h : rcUnitRows dev = .ok rows) :
    (rows.map pairOf).Sublist ((projectsOf dev).map fun p ↦ (dev.get "user", p.get "name")) := by
  simp only [rcUnitRows, bind_eq_ok, pure_eq_ok, Except.ok.injEq] at h
  obtain ⟨projects, hprojects, found, hfound, rfl⟩ := h
  rw [projectsOf, listOf_of_elems hprojects]
  have hrows := mapM_eq_ok.mp hfound
  clear hfound hprojects
  induction hrows with
  | nil => exact List.Sublist.refl []
  | @cons project row projects rows hrow _ ih =>
      cases row with
      | none => exact ih.cons _
      | some row =>
          obtain ⟨_, huser, hproject, _⟩ := rcUnitRow_inv hrow
          have hcons : List.filterMap id (some row :: rows) = row :: List.filterMap id rows := rfl
          rw [hcons, List.map_cons, List.map_cons, pairOf, huser, hproject]
          exact ih.cons_cons _

theorem groups_nodup {developers : List Val} {groups : List (List Val)}
    (h : List.Forall₂ (fun dev rows ↦ rcUnitRows dev = .ok rows) developers groups)
    (husers : (developers.map fun dev ↦ dev.get "user").Nodup)
    (hprojects : ∀ dev ∈ developers, ((projectsOf dev).map fun p ↦ p.get "name").Nodup) :
    (groups.flatten.map pairOf).Nodup := by
  induction h with
  | nil => exact List.nodup_nil
  | @cons dev rows developers groups hrows hgroups ih =>
      rw [List.map_cons, List.nodup_cons] at husers
      rw [List.flatten_cons, List.map_append, List.nodup_append]
      have hpairs := rcUnitRows_pairs hrows
      refine ⟨?_, ih husers.2 fun d hd ↦ hprojects d (List.mem_cons_of_mem _ hd), ?_⟩
      · refine List.Nodup.sublist hpairs ?_
        refine nodup_map_of (hprojects dev List.mem_cons_self) ?_
        intro p _ q _ heq
        exact congrArg Prod.snd heq
      · intro a ha b hb heq
        obtain ⟨p, _, rfl⟩ := List.mem_map.mp (hpairs.subset ha)
        obtain ⟨row, hrow, rfl⟩ := List.mem_map.mp hb
        obtain ⟨group, hgroup, hmem⟩ := List.mem_flatten.mp hrow
        obtain ⟨other, hother, hgroupOf⟩ := forall₂_exists_left hgroups hgroup
        obtain ⟨q, _, hq⟩ := List.mem_map.mp
          ((rcUnitRows_pairs hgroupOf).subset (List.mem_map.mpr ⟨row, hmem, rfl⟩))
        refine husers.1 (List.mem_map.mpr ⟨other, hother, ?_⟩)
        exact (congrArg Prod.fst (hq.trans heq.symm))

theorem unit_toList (first agent label : String) :
    (first ++ agent ++ "-" ++ label ++ ".service").toList =
      first.toList ++ (agent.toList ++ '-' :: (label.toList ++ ".service".toList)) := by
  have hhyphen : "-".toList = ['-'] := rfl
  simp only [String.toList_append, List.append_assoc, hhyphen, List.cons_append,
    List.nil_append]

theorem unit_ne_of_prefix (first second word : String) {agent label agent' label' : String}
    (hsecond : second.toList = first.toList ++ (word.toList ++ ['-'])) (hagent : '-' ∉ agent.toList)
    (hword : '-' ∉ word.toList) (hne : agent ≠ word) :
    first ++ agent ++ "-" ++ label ++ ".service" ≠
      second ++ agent' ++ "-" ++ label' ++ ".service" := by
  intro heq
  have hlists := congrArg String.toList heq
  rw [unit_toList, unit_toList, hsecond, List.append_assoc, List.append_assoc,
    List.singleton_append] at hlists
  obtain ⟨hsame, _⟩ := (append_sep_inj hagent hword).mp (List.append_cancel_left hlists)
  exact hne (String.toList_inj.mp hsame)

/-- A companion is named like a unit whose agent is called `resume`. -/
theorem unit_ne_resume {r t : Val} (hhyphen : '-' ∉ (rcLabel r).1.toList)
    (hne : (rcLabel r).1 ≠ "resume") : rcUnitOf r ≠ resumeUnitOf t :=
  unit_ne_of_prefix "agent-rc-" "agent-rc-resume-" "resume" (by decide +kernel) hhyphen
    (by decide +kernel) hne

section Accepted

variable {env : ClientEnv} {client : ClientFacts}
  {doc resolved vars tailscale hostVars rcUnits : Val} {devs developers vdevs : List Val}

theorem resolved_users (h : Accepted env doc resolved devs) :
    (developersOf resolved).map (fun rdev ↦ rdev.get "user") = devs.map fun dev ↦ dev.get "user" := by
  symm
  refine map_eq_of_forall₂ h.developers_match ?_
  rintro dev rdev ⟨_, hresolved⟩
  rw [hresolved.fields "user" (by decide)]

theorem resolved_projects_nodup (h : Accepted env doc resolved devs) {rdev : Val}
    (hrdev : rdev ∈ developersOf resolved) :
    ((projectsOf rdev).map fun p ↦ p.get "name").Nodup := by
  obtain ⟨dev, hdev, _, hresolved⟩ := forall₂_exists_left h.developers_match hrdev
  have hnames : (projectsOf rdev).map (fun p ↦ p.get "name") =
      (projectsOf dev).map fun p ↦ p.get "name" := by
    symm
    refine map_eq_of_forall₂ hresolved.projects_match ?_
    rintro project rp ⟨_, r, path, hr, rfl⟩
    rw [resolveProject_name hr]
  obtain ⟨projects, heq, _, hfresh⟩ := (h.referenced.refs dev hdev).projects
  rw [hnames]
  have hlist : projectsOf dev = projects := listOf_orElse_nil heq
  rw [hlist]
  refine (nodup_of_fresh ?_ hfresh).1
  intro v hv
  obtain ⟨project, hproject, rfl⟩ := List.mem_map.mp hv
  obtain ⟨name, hname, _⟩ := accepted_projectName h hdev (hlist ▸ hproject)
  exact ⟨name, hname⟩

theorem rcPairs_nodup (h : Accepted env doc resolved devs)
    (gen : Generated client resolved vars tailscale hostVars rcUnits developers vdevs) :
    ((rcRows vars).map rcPair).Nodup := by
  have hpairs : ((rcRows vars).map pairOf).Nodup := by
    have hunits := gen.rcUnits_eq
    simp only [normalizeRcUnits, bind_eq_ok, pure_eq_ok, Except.ok.injEq] at hunits
    obtain ⟨groups, hgroups, hflat⟩ := hunits
    rw [rcRows, gen.rcUnits, ← hflat]
    have hdevelopers : developersOf resolved = developers := listOf_of_elems gen.developers_eq
    refine groups_nodup (mapM_eq_ok.mp hgroups) ?_ ?_
    · rw [← hdevelopers, resolved_users h]
      exact accepted_users_nodup h
    · intro rdev hrdev
      exact resolved_projects_nodup h (hdevelopers ▸ hrdev)
  refine nodup_map_of hpairs ?_
  intro r hr t ht heq
  obtain ⟨_, user, project, _, huser, hproject, _⟩ := rcRow_names h gen hr
  obtain ⟨_, user', project', _, huser', hproject', _⟩ := rcRow_names h gen ht
  simp only [rcPair, huser, huser', hproject, hproject', textOf, Prod.mk.injEq] at heq
  rw [pairOf, pairOf, huser, huser', hproject, hproject', heq.1, heq.2]

/-! ## When the names are distinct -/

/-- Each pair of rows with one agent keeps its names apart. -/
theorem labels_nodup_iff (h : Accepted env doc resolved devs)
    (gen : Generated client resolved vars tailscale hostVars rcUnits developers vdevs) :
    ((rcRows vars).map rcLabel).Nodup ↔ ∀ r ∈ rcRows vars, ∀ t ∈ rcRows vars,
      textOf (r.get "agent") = textOf (t.get "agent") → ¬ Overlaps r t := by
  constructor
  · intro hlabels r hr t ht hagent hoverlap
    have hsame : r = t :=
      List.inj_on_of_nodup_map hlabels hr ht (rcLabel_eq_iff.mpr ⟨hagent, .inr (.inl hoverlap)⟩)
    obtain ⟨s, huser, _⟩ := overlaps_iff.mp hoverlap
    rw [hsame] at huser
    have hlength := congrArg List.length huser
    rw [List.length_append, List.length_cons] at hlength
    omega
  · intro hapart
    refine nodup_map_of (rcPairs_nodup h gen) ?_
    intro r hr t ht heq
    obtain ⟨hagent, hpair | hoverlap | hoverlap⟩ := rcLabel_eq_iff.mp heq
    · exact hpair
    · exact (hapart r hr t ht hagent hoverlap).elim
    · exact (hapart t ht r hr hagent.symm hoverlap).elim

theorem unitNames_nodup_iff (h : Accepted env doc resolved devs)
    (gen : Generated client resolved vars tailscale hostVars rcUnits developers vdevs) :
    (unitNames vars).Nodup ↔ ((rcRows vars).map rcLabel).Nodup := by
  have hagents : ∀ row ∈ rcRows vars, (rcLabel row).1 ∈ PROVIDERS := by
    intro row hrow
    obtain ⟨agent, _, _, hagent, _, _, hprovider, _⟩ := rcRow_names h gen hrow
    rwa [rcLabel, hagent]
  have hproviders : ∀ a ∈ PROVIDERS, '-' ∉ a.toList ∧ a ≠ "resume" := by decide +kernel
  have hunit : ∀ (first : String) (r t : Val), r ∈ rcRows vars → t ∈ rcRows vars →
      first ++ (rcLabel r).1 ++ "-" ++ (rcLabel r).2 ++ ".service" =
        first ++ (rcLabel t).1 ++ "-" ++ (rcLabel t).2 ++ ".service" → rcLabel r = rcLabel t := by
    intro first r t hr ht heq
    have hlists := congrArg String.toList heq
    rw [unit_toList, unit_toList] at hlists
    obtain ⟨hagent, hrest⟩ := (append_sep_inj (hproviders _ (hagents r hr)).1
      (hproviders _ (hagents t ht)).1).mp (List.append_cancel_left hlists)
    exact Prod.ext (String.toList_inj.mp hagent)
      (String.toList_inj.mp (List.append_cancel_right hrest))
  rw [unitNames, List.nodup_append]
  constructor
  · rintro ⟨hunits, _, _⟩
    refine nodup_map_of hunits ?_
    intro r _ t _ heq
    rw [rcUnitOf, rcUnitOf, heq]
  · intro hlabels
    refine ⟨nodup_map_of hlabels fun r hr t ht heq ↦ hunit "agent-rc-" r t hr ht heq,
      nodup_map_of hlabels fun r hr t ht heq ↦ hunit "agent-rc-resume-" r t hr ht heq, ?_⟩
    intro a ha b hb heq
    obtain ⟨r, hr, rfl⟩ := List.mem_map.mp ha
    obtain ⟨t, ht, rfl⟩ := List.mem_map.mp hb
    obtain ⟨hhyphen, hne⟩ := hproviders _ (hagents r hr)
    exact unit_ne_resume hhyphen hne heq

end Accepted

/-! ## Secrets -/

/-- The characters that folding makes one. -/
def Alike (c d : Char) : Prop := c = d ∨ (c = '-' ∨ c = '_') ∧ (d = '-' ∨ d = '_')

/-- Folding loses the difference of hyphen and underscore, and nothing else. -/
theorem toLower_foldChar {c : Char} (h : nameTail c = true) :
    (foldChar c).toLower = if c = '-' then '_' else c := by
  have hascii : c.toNat < 128 := by
    simp only [nameTail, Bool.or_eq_true] at h
    rcases h with ((h | h) | h) | h
    · exact Regex.isAlnum_lt (by simp [Regex.isAlnum, h])
    · exact Regex.isAlnum_lt (by simp [Regex.isAlnum, h])
    · rw [beq_iff_eq.mp h]
      decide
    · rw [beq_iff_eq.mp h]
      decide
  revert h
  refine Regex.ascii_forall (P := fun c ↦ nameTail c = true →
    (foldChar c).toLower = if c = '-' then '_' else c) ?_ hascii
  decide +kernel

theorem foldChar_eq_iff {c d : Char} (hc : nameTail c = true) (hd : nameTail d = true) :
    foldChar c = foldChar d ↔ Alike c d := by
  constructor
  · intro heq
    have hlower := congrArg Char.toLower heq
    rw [toLower_foldChar hc, toLower_foldChar hd] at hlower
    unfold Alike
    by_cases hc' : c = '-' <;> by_cases hd' : d = '-' <;> simp only [hc', hd', if_true, if_false] at hlower
    · exact .inl (hc'.trans hd'.symm)
    · exact .inr ⟨.inl hc', .inr hlower.symm⟩
    · exact .inr ⟨.inr hlower, .inl hd'⟩
    · exact .inl hlower
  · rintro (rfl | ⟨rfl | rfl, rfl | rfl⟩) <;> rfl

theorem map_foldChar_eq_iff {u w : List Char} (hu : ∀ c ∈ u, nameTail c = true)
    (hw : ∀ c ∈ w, nameTail c = true) :
    u.map foldChar = w.map foldChar ↔ List.Forall₂ Alike u w := by
  induction u generalizing w with
  | nil => cases w <;> simp
  | cons c u ih =>
      cases w with
      | nil => simp
      | cons d w =>
          rw [List.forall_mem_cons] at hu hw
          rw [List.map_cons, List.map_cons, List.cons_eq_cons, List.forall₂_cons,
            foldChar_eq_iff hu.1 hw.1, ih hu.2 hw.2]

theorem rdpSecretName_eq_iff {u w : String} (hu : Text.test USERNAME_RE u = true)
    (hw : Text.test USERNAME_RE w = true) :
    rdpSecretName u = rdpSecretName w ↔ List.Forall₂ Alike u.toList w.toList := by
  rw [← map_foldChar_eq_iff (nameTail_of_userName hu) (nameTail_of_userName hw)]
  refine (String.append_right_inj _).trans ?_
  exact String.ofList_inj

section Secrets

variable {env : ClientEnv} {client : ClientFacts}
  {doc resolved vars tailscale hostVars rcUnits : Val} {devs developers vdevs : List Val}

theorem secretNames_nodup_iff (h : Accepted env doc resolved devs)
    (gen : Generated client resolved vars tailscale hostVars rcUnits developers vdevs) :
    (secretNames vars).Nodup ↔ ∀ d ∈ desktopUsers vars, ∀ e ∈ desktopUsers vars,
      List.Forall₂ Alike (textOf (d.get "user")).toList (textOf (e.get "user")).toList →
        textOf (d.get "user") = textOf (e.get "user") := by
  have hname : ∀ d ∈ desktopUsers vars, ∃ user, d.get "user" = .str user ∧
      Text.test USERNAME_RE user = true := by
    intro d hd
    have hmem : d.get "user" ∈ (listOf (vars.get "devbox_developers")).map fun d ↦ d.get "user" :=
      List.mem_map.mpr ⟨d, (List.mem_filter.mp hd).1, rfl⟩
    rw [generated_users h gen] at hmem
    obtain ⟨dev, hdev, heq⟩ := List.mem_map.mp hmem
    rw [← heq]
    exact accepted_user h hdev
  have hfold : ∀ d ∈ desktopUsers vars, ∀ e ∈ desktopUsers vars,
      (rdpSecretName (textOf (d.get "user")) = rdpSecretName (textOf (e.get "user")) ↔
        List.Forall₂ Alike (textOf (d.get "user")).toList (textOf (e.get "user")).toList) := by
    intro d hd e he
    obtain ⟨user, huser, hre⟩ := hname d hd
    obtain ⟨user', huser', hre'⟩ := hname e he
    rw [huser, huser']
    exact rdpSecretName_eq_iff hre hre'
  constructor
  · intro hnodup d hd e he halike
    rw [List.inj_on_of_nodup_map hnodup hd he ((hfold d hd e he).mpr halike)]
  · intro hseparate
    have husers : ((desktopUsers vars).map fun d ↦ d.get "user").Nodup := by
      refine List.Nodup.sublist (List.filter_sublist.map _) ?_
      exact generated_users h gen ▸ accepted_users_nodup h
    refine nodup_map_of husers ?_
    intro d hd e he heq
    obtain ⟨user, huser, _⟩ := hname d hd
    obtain ⟨user', huser', _⟩ := hname e he
    have hsame := hseparate d hd e he ((hfold d hd e he).mp heq)
    rw [huser, huser', textOf, textOf] at hsame
    rw [huser, huser', hsame]

end Secrets

/-! ## All of them together -/

/-- What keeps the derived names apart: no two units of one agent overlap, and no
two desktop accounts differ in hyphens and underscores alone. -/
structure NamesSeparate (vars : Val) : Prop where
  units : ∀ r ∈ rcRows vars, ∀ t ∈ rcRows vars,
    textOf (r.get "agent") = textOf (t.get "agent") → ¬ Overlaps r t
  desktops : ∀ d ∈ desktopUsers vars, ∀ e ∈ desktopUsers vars,
    List.Forall₂ Alike (textOf (d.get "user")).toList (textOf (e.get "user")).toList →
      textOf (d.get "user") = textOf (e.get "user")

theorem names_distinct_iff {env : ClientEnv} {client : ClientFacts} {doc : Doc}
    {resolved vars : Val} (h : Accepts env doc resolved)
    (hvars : normalize client resolved = .ok vars) : NamesDistinct vars ↔ NamesSeparate vars := by
  obtain ⟨devs, haccepted⟩ := accepted h
  obtain ⟨_, _, _, _, _, gen⟩ := generated_of_normalize hvars
  rw [NamesDistinct, unitNames_nodup_iff haccepted gen, labels_nodup_iff haccepted gen,
    secretNames_nodup_iff haccepted gen]
  exact ⟨fun hboth ↦ ⟨hboth.1, hboth.2⟩, fun hseparate ↦ ⟨hseparate.units, hseparate.desktops⟩⟩

/-- A developer with one project, driven by Claude. -/
def projectOwner (user project : String) : Val :=
  .obj
    [("user", .str user),
     ("login_ssh_keys", .arr ["ssh-ed25519 AAAA"]),
     ("agent_profiles", .obj [("main", .obj [("provider", "claude")])]),
     ("projects", .arr [.obj [("name", .str project), ("repo", "git@host:app.git")]])]

def twoOwners (first second : Val) : Val :=
  specWith [("developers", .arr [first, second])] []

def overlappingOwners : Doc :=
  ⟨twoOwners (projectOwner "a" "b-c") (projectOwner "a-b" "c"), by decide +kernel⟩

def separateOwners : Doc :=
  ⟨twoOwners (projectOwner "a" "b") (projectOwner "b" "c"), by decide +kernel⟩

/-- Project `b-c` of `a` and project `c` of `a-b` are one unit. -/
theorem overlapping_names_collide :
    ∃ resolved vars, Accepts homeEnv overlappingOwners resolved ∧
      normalize noClient resolved = .ok vars ∧ ¬ NamesDistinct vars := by
  have hread : ((varsOf homeEnv noClient overlappingOwners.val).map fun vars ↦
      decide (unitNames vars).Nodup) = some false := by decide +kernel
  obtain ⟨vars, hvars, hfalse⟩ := Option.map_eq_some_iff.mp hread
  obtain ⟨resolved, haccepts, hnormalize⟩ := vars_eq_some hvars
  refine ⟨resolved, vars, haccepts, hnormalize, ?_⟩
  intro hdistinct
  exact absurd hdistinct.1 (of_decide_eq_false hfalse)

theorem separate_names_distinct :
    ∃ resolved vars, Accepts homeEnv separateOwners resolved ∧
      normalize noClient resolved = .ok vars ∧ (NamesDistinct vars ↔ NamesSeparate vars) := by
  obtain ⟨resolved, vars, haccepts, hvars⟩ := exists_vars homeEnv noClient separateOwners
    (by decide +kernel)
  exact ⟨resolved, vars, haccepts, hvars, names_distinct_iff haccepts hvars⟩

end RemoteDevbox.Ansible
