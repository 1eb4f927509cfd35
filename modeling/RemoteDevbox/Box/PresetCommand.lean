import RemoteDevbox.Box.PresetAgreement
import RemoteDevbox.Box.PresetController

namespace RemoteDevbox.Box

open Js Client Spec

/-!
# The `/preset` command

The command takes a preset by its name unless the name is one of its own
subcommands. Aliases are kept clear of those, canonical names are not.
-/

inductive PresetCommand where
  | status
  | list
  | show (argument : String)
  | reset
  | apply (requested : String)
  deriving DecidableEq

/-- `requested.slice("show".length)`. -/
def afterShow (requested : String) : String := String.ofList (requested.toList.drop "show".length)

/-- What the handler does with its arguments. -/
def presetCommand (args : String) : PresetCommand :=
  let trimmed := Text.trim args
  let requested := if trimmed = "" then "status" else trimmed
  if requested = "status" then .status
  else if requested = "list" then .list
  else if requested = "show" ∨ "show ".toList.isPrefixOf requested.toList then
    .show (Text.trim (afterShow requested))
  else if requested = "reset" then .reset
  else .apply requested

/-- The command with `argument` applies the preset declared as `target`. -/
structure Selects (written : Val) (parsed : ParsedPresetDocument) (argument target : String) :
    Prop where
  command : presetCommand argument = .apply argument
  canonical : canonicalName parsed argument = target
  preset : ∃ preset, parsed.presets.lookup target = some preset ∧
    AgreesPreset (Fields.lookup (written.get "presets").ownFields target) preset

/-- The extension reads the copy, and every name selects what it names. -/
def Selectable (written copied : Val) : Prop :=
  ∃ parsed, parsePresetDocument copied = .ok parsed ∧
    (∀ name ∈ (written.get "presets").ownFields.keys, Selects written parsed name name) ∧
    ∀ short target, (short, .str target) ∈ (written.get "aliases").ownFields →
      Selects written parsed short target

/-- The blocks whose copy the extension reads at all. -/
structure Loadable (written : Val) : Prop where
  trimmed : ∀ p ∈ (written.get "presets").ownFields, TrimmedRoles p.2
  chains : ((written.get "retry").get "fallback_chains").ownFields.keys ≠ ["__proto__"]

/-! ## Names -/

theorem nameChar_not_space {c : Char}
    (h : (Regex.isLower c || Regex.isDigit c || c == '-') = true) : Text.isSpace c = false := by
  rcases Bool.or_eq_true _ _ ▸ h with halnum | hdash
  · have hlt : c.toNat < 128 := Regex.isAlnum_lt (by
      rw [Bool.or_eq_true] at halnum
      rcases halnum with hlower | hdigit
      · simp [Regex.isAlnum, hlower]
      · simp [Regex.isAlnum, hdigit])
    have hall : ∀ c : Char, c.toNat < 128 →
        (Regex.isLower c || Regex.isDigit c) = true → Text.isSpace c = false :=
      fun c hc ↦ @Regex.ascii_forall
        (fun c ↦ (Regex.isLower c || Regex.isDigit c) = true → Text.isSpace c = false)
        (by decide +kernel) c hc
    exact hall c hlt halnum
  · obtain rfl := beq_iff_eq.mp hdash
    rfl

theorem safe_not_space {name : String} (h : Text.test OMP_PRESET_NAME_RE name = true) {c : Char}
    (hc : c ∈ name.toList) : Text.isSpace c = false := by
  obtain ⟨d, v, hname, hd, hv⟩ := Regex.isMatch_head_tail.mp h
  rw [hname] at hc
  rcases List.mem_cons.mp hc with rfl | hc
  · exact nameChar_not_space (by simp [hd])
  · exact nameChar_not_space (hv c hc)

theorem safe_ne_empty {name : String} (h : Text.test OMP_PRESET_NAME_RE name = true) :
    name ≠ "" := by
  rintro rfl
  exact absurd h (by decide +kernel)

theorem trim_eq_self {s : String} (h : ∀ c ∈ s.toList, Text.isSpace c = false) :
    Text.trim s = s := by
  have hdrop : ∀ cs : List Char, (∀ c ∈ cs, Text.isSpace c = false) →
      cs.dropWhile Text.isSpace = cs := by
    intro cs hcs
    cases cs with
    | nil => rfl
    | cons c cs => rw [List.dropWhile_cons_of_neg (by simp [hcs c List.mem_cons_self])]
  rw [Text.trim, Text.trimChars, hdrop _ h,
    hdrop _ fun c hc ↦ h c (List.mem_reverse.mp hc), List.reverse_reverse, String.ofList_toList]

theorem presetCommand_safe {name : String} (h : Text.test OMP_PRESET_NAME_RE name = true) :
    presetCommand name = .apply name ↔ name ∉ PRESET_RESERVED_NAMES := by
  have htrim : Text.trim name = name := trim_eq_self fun c hc ↦ safe_not_space h hc
  have hshow : "show ".toList.isPrefixOf name.toList = false := by
    rw [Bool.eq_false_iff, ne_eq, List.isPrefixOf_iff_prefix]
    intro hprefix
    have hspace : ' ' ∈ name.toList := hprefix.subset (by decide)
    exact absurd (safe_not_space h hspace) (by decide)
  rw [presetCommand]
  simp only [htrim, if_neg (safe_ne_empty h), hshow, Bool.false_eq_true, or_false,
    PRESET_RESERVED_NAMES, List.mem_cons, List.not_mem_nil, not_or]
  split
  · simp [*]
  split
  · simp [*]
  split
  · simp [*]
  split
  · simp [*]
  · simp [*]

/-! ## The copied retry policy -/

theorem keys_assignProp (fs : Fields) (k : String) (v : Val) {j : String} :
    j ∈ (assignProp fs k v).keys ↔ j ∈ fs.keys ∨ (j = k ∧ k ≠ "__proto__") := by
  unfold assignProp
  split
  · rename_i hproto
    simp [beq_iff_eq.mp hproto]
  · rename_i hne
    have hk : k ≠ "__proto__" := by simpa using hne
    rw [Fields.keys_set]
    split
    · rename_i hmem
      constructor
      · exact .inl
      · rintro (hj | ⟨rfl, -⟩)
        · exact hj
        · exact hmem
    · simp [hk]

theorem keys_mapEntries {fn : Val → Js Val} {out fields result : Fields}
    (h : mapEntries fn out fields = .ok result) {j : String} :
    j ∈ result.keys ↔ j ∈ out.keys ∨ (j ∈ fields.keys ∧ j ≠ "__proto__") := by
  induction fields generalizing out with
  | nil =>
      obtain rfl := Except.ok.inj h
      simp [Fields.keys]
  | cons p fields ih =>
      obtain ⟨k, v⟩ := p
      simp only [mapEntries, bind_eq_ok] at h
      obtain ⟨image, -, hrest⟩ := h
      rw [ih hrest, keys_assignProp]
      have hkeys : j ∈ Fields.keys ((k, v) :: fields) ↔ j = k ∨ j ∈ Fields.keys fields :=
        List.mem_cons
      rw [hkeys]
      constructor
      · rintro ((hout | ⟨rfl, hne⟩) | ⟨hmem, hne⟩)
        · exact .inl hout
        · exact .inr ⟨.inl rfl, hne⟩
        · exact .inr ⟨.inr hmem, hne⟩
      · rintro (hout | ⟨rfl | hmem, hne⟩)
        · exact .inl (.inl hout)
        · exact .inl (.inr ⟨rfl, hne⟩)
        · exact .inr ⟨hmem, hne⟩

theorem nodup_mapEntries {fn : Val → Js Val} {out fields result : Fields}
    (h : mapEntries fn out fields = .ok result) (hnodup : out.keys.Nodup) : result.keys.Nodup := by
  induction fields generalizing out with
  | nil =>
      obtain rfl := Except.ok.inj h
      exact hnodup
  | cons p fields ih =>
      obtain ⟨k, v⟩ := p
      simp only [mapEntries, bind_eq_ok] at h
      obtain ⟨image, -, hrest⟩ := h
      refine ih hrest ?_
      unfold assignProp
      split
      · exact hnodup
      · exact Fields.nodup_keys_set hnodup k image

/-- The chains the generator copies are those written, without the name an
assignment loses. -/
theorem normalizeRetry_inv {raw copy : Val} (h : RetryPasses raw)
    (hcopy : normalizeRetry raw = .ok copy) :
    ∃ chains : Fields, copy = .obj (raw.ownFields.set "fallback_chains" (.obj chains)) ∧
      chains.keys.Nodup ∧
      (∀ j, j ∈ chains.keys ↔
        j ∈ (raw.get "fallback_chains").ownFields.keys ∧ j ≠ "__proto__") ∧
      ∀ p ∈ chains, ChainPasses p.1 p.2 := by
  obtain ⟨c, cs, hchains, hall⟩ := h.chains
  obtain ⟨copied, hcopied, hcopy⟩ := bind_eq_ok.mp hcopy
  obtain rfl := Except.ok.inj hcopy
  rw [hchains] at hcopied ⊢
  obtain ⟨chains, hentries, hcopied⟩ := bind_eq_ok.mp (show
    (mapEntries (fun fallbacks ↦ do
      let list ← fallbacks.spread
      return .arr list) [] (c :: cs) >>= fun out ↦ pure (Val.obj out)) = .ok copied from hcopied)
  obtain rfl := Except.ok.inj hcopied
  refine ⟨chains, rfl, nodup_mapEntries hentries List.nodup_nil, fun j ↦ ?_, ?_⟩
  · rw [keys_mapEntries hentries]
    simp [Fields.keys, Val.ownFields]
  · rintro ⟨k, v⟩ hmem
    rw [mapEntries_eq_assignEach] at hentries
    rcases mem_assignEach hentries hmem with hnil | ⟨-, w, hw, hv⟩
    · cases hnil
    · have hpass := hall (k, w) hw
      obtain ⟨f, fs, hlist, -⟩ := hpass.fallbacks
      have hsame : v = w := by
        dsimp only at hlist
        rw [hlist] at hv ⊢
        exact (Except.ok.inj hv).symm
      rwa [hsame]

/-- The extension reads the copied policy unless it has lost its only chain. -/
theorem copied_policy_read {raw copy : Val} (h : RetryPasses raw) (hparsed : raw.parsed = true)
    (hcopy : normalizeRetry raw = .ok copy) :
    (∃ retry, parseRetryPolicy copy = .ok retry) ↔
      (raw.get "fallback_chains").ownFields.keys ≠ ["__proto__"] := by
  obtain ⟨chains, rfl, hnodup, hkeys, hall⟩ := normalizeRetry_inv h hcopy
  have hget : ∀ k, k ≠ "fallback_chains" →
      (Val.obj (raw.ownFields.set "fallback_chains" (.obj chains))).get k = raw.get k := by
    intro k hk
    obtain ⟨fs, rfl⟩ := record_eq h.record
    change Fields.lookup (Fields.set fs "fallback_chains" (.obj chains)) k = Fields.lookup fs k
    rw [Fields.lookup_set, if_neg (Ne.symm hk)]
  have hchains : (Val.obj (raw.ownFields.set "fallback_chains" (.obj chains))).get
      "fallback_chains" = .obj chains := by
    change Fields.lookup (Fields.set raw.ownFields "fallback_chains" (.obj chains)) _ = _
    rw [Fields.lookup_set, if_pos rfl]
  constructor
  · rintro ⟨retry, hretry⟩ hlone
    have hnil : chains = [] := by
      refine List.eq_nil_iff_forall_not_mem.mpr fun p hp ↦ ?_
      have hkey : p.1 ∈ chains.keys := List.mem_map_of_mem hp
      obtain ⟨hwritten, hne⟩ := (hkeys p.1).mp hkey
      rw [hlone] at hwritten
      exact hne (List.mem_singleton.mp hwritten)
    simp only [parseRetryPolicy, bind_eq_ok] at hretry
    obtain ⟨policy, hfields, -⟩ := hretry
    simp only [parseRetryFields, bind_eq_ok] at hfields
    obtain ⟨_, -, _, -, _, -, _, -, _, -, _, -, _, -, _, -, _, hnonEmpty, -⟩ := hfields
    rw [require_eq_ok, hchains, hnil] at hnonEmpty
    cases hnonEmpty
  · intro hne
    obtain ⟨c, cs, hwritten, -⟩ := h.chains
    have hlist : ∃ d ds, chains = d :: ds := by
      cases hchain : chains with
      | cons d ds => exact ⟨d, ds, rfl⟩
      | nil =>
          refine (hne ?_).elim
          have honly : ∀ j ∈ (raw.get "fallback_chains").ownFields.keys, j = "__proto__" := by
            intro j hj
            by_contra hproto
            have hmem := (hkeys j).mpr ⟨hj, hproto⟩
            rw [hchain] at hmem
            cases hmem
          exact eq_singleton_of_nodup (chains_nodup h hparsed)
            (by rw [hwritten]; exact List.cons_ne_nil _ _) honly
    obtain ⟨d, ds, hchain⟩ := hlist
    have hcopied : RetryPasses (.obj (raw.ownFields.set "fallback_chains" (.obj chains))) := by
      refine ⟨rfl, ?_, ?_, ?_, ?_, ?_, ⟨d, ds, by rw [hchains, hchain], hchain ▸ hall⟩⟩
      · intro k hk
        have hset : k ∈ (raw.ownFields.set "fallback_chains" (.obj chains)).keys := hk
        rw [Fields.keys_set] at hset
        split at hset
        · exact h.known k hset
        · rcases List.mem_append.mp hset with hold | hnew
          · exact h.known k hold
          · rw [List.mem_singleton.mp hnew]
            decide
      · intro k hk
        rw [hget k (by rintro rfl; simp at hk)]
        exact h.flags k hk
      · rw [hget _ (by decide)]
        exact h.percent
      · rw [hget _ (by decide)]
        exact h.reserve
      · rw [hget _ (by decide)]
        exact h.revert
    obtain ⟨policy, hpolicy, -⟩ := parseRetry_of_passes hcopied
      (by rw [hchains]; exact hnodup)
      (by rw [hchains]; exact fun hmem ↦ ((hkeys _).mp hmem).2 rfl)
    exact ⟨some policy, hpolicy⟩

/-! ## The whole block -/

/-- What the generator leaves where the extension looks for the policy. -/
theorem copied_retry {raw copied : Val} (h : BlockPasses raw)
    (hcopy : normalizePresets raw = .ok copied) :
    (raw.get "retry" = .undef ∧ copied.get "retry" = .undef) ∨
      (RetryPasses (raw.get "retry") ∧ normalizeRetry (raw.get "retry") = .ok (copied.get "retry")) := by
  obtain ⟨roleMaps, retry, -, rfl, hretry⟩ := normalizePresets_inv hcopy
  have hread : ∀ retry : Fields, (Val.obj ([("default_preset", raw.get "default_preset")] ++
      (if (raw.get "aliases").truthy then [("aliases", Val.obj (raw.get "aliases").ownFields)]
        else []) ++ [("presets", roleMaps)] ++ retry)).get "retry" = Fields.lookup retry "retry" := by
    intro retry
    split <;> rfl
  rw [hread]
  rcases h.retry with hundef | hpasses
  · rcases hretry with ⟨-, rfl⟩ | ⟨htrue, -⟩
    · exact .inl ⟨hundef, rfl⟩
    · rw [hundef] at htrue
      cases htrue
  · rcases hretry with ⟨hfalse, -⟩ | ⟨-, copy, hcopied, rfl⟩
    · obtain ⟨fs, hfs⟩ := record_eq hpasses.record
      rw [hfs] at hfalse
      cases hfalse
    · exact .inr ⟨hpasses, hcopied⟩

theorem policy_read_iff {raw copied : Val} (h : BlockPasses raw) (hparsed : raw.parsed = true)
    (hcopy : normalizePresets raw = .ok copied) :
    (∃ retry, parseRetryPolicy (copied.get "retry") = .ok retry) ↔
      ((raw.get "retry").get "fallback_chains").ownFields.keys ≠ ["__proto__"] := by
  rcases copied_retry h hcopy with ⟨hundef, hnone⟩ | ⟨hpasses, hcopied⟩
  · rw [hundef, hnone]
    exact iff_of_true ⟨none, rfl⟩ (by decide)
  · exact copied_policy_read hpasses (Val.parsed_get hparsed (retry_stated hpasses)) hcopied

theorem block_read {raw copied : Val} (h : BlockPasses raw) (hparsed : raw.parsed = true)
    (hcopy : normalizePresets raw = .ok copied) (hloadable : Loadable raw) :
    ∃ parsed, parsePresetDocument copied = .ok parsed ∧ AgreesNames raw parsed := by
  obtain ⟨hcopies, -⟩ := copies_of_normalize h hparsed hcopy
  obtain ⟨retry, hretry⟩ := (policy_read_iff h hparsed hcopy).mpr hloadable.chains
  obtain ⟨parsed, hparse, hagrees, -⟩ := parse_of_policy h hparsed hcopies hloadable.trimmed hretry
  exact ⟨parsed, hparse, hagrees⟩

theorem loadable_of_read {raw copied : Val} {parsed : ParsedPresetDocument} (h : BlockPasses raw)
    (hparsed : raw.parsed = true) (hcopy : normalizePresets raw = .ok copied)
    (hparse : parsePresetDocument copied = .ok parsed) : Loadable raw := by
  obtain ⟨hcopies, -⟩ := copies_of_normalize h hparsed hcopy
  simp only [parsePresetDocument, bind_eq_ok] at hparse
  obtain ⟨_, -, _, -, _, -, _, -, _, -, presets, hpresets, _, -, retry, hretry, -⟩ := hparse
  refine ⟨fun p hp ↦ ?_, (policy_read_iff h hparsed hcopy).mp ⟨retry, hretry⟩⟩
  rw [hcopies.presets] at hpresets
  obtain ⟨preset, hpreset⟩ := assignEach_each hpresets hp
  exact parsePreset_trimmed hpreset

/-! ## What the names select -/

theorem preset_stated {raw : Val} {parsed : ParsedPresetDocument} (hagrees : AgreesNames raw parsed)
    (hnodup : (raw.get "presets").ownFields.keys.Nodup) {name : String}
    (hname : name ∈ (raw.get "presets").ownFields.keys) :
    ∃ preset, parsed.presets.lookup name = some preset ∧
      AgreesPreset (Fields.lookup (raw.get "presets").ownFields name) preset := by
  obtain ⟨p, hp, rfl⟩ := List.mem_map.mp hname
  obtain ⟨preset, hpreset, hsame, hroles⟩ := forall₂_exists_left hagrees.presets.flip hp
  have hkeys := forall₂_fst hagrees.presets fun _ _ h ↦ h.1
  rw [Fields.lookup_of_mem hnodup hp]
  refine ⟨preset.2, lookup_of_mem ?_ (hsame ▸ hpreset), hroles⟩
  rw [hkeys]
  exact hnodup

theorem alias_passes {raw : Val} (h : BlockPasses raw) {short : String} {value : Val}
    (hmem : (short, value) ∈ (raw.get "aliases").ownFields) :
    AliasPasses (raw.get "presets") short value := by
  rcases h.aliases with hundef | ⟨fs, hfs, hall⟩
  · rw [hundef] at hmem
    cases hmem
  · rw [hfs] at hmem
    exact hall _ hmem

theorem canonical_of_preset {raw : Val} {parsed : ParsedPresetDocument} (h : BlockPasses raw)
    (hagrees : AgreesNames raw parsed) {name : String}
    (hname : name ∈ (raw.get "presets").ownFields.keys) : canonicalName parsed name = name := by
  cases hlookup : parsed.aliases.lookup name with
  | none => rw [canonicalName, hlookup, Option.getD_none]
  | some target =>
      have hmem : (name, Val.str target) ∈ (raw.get "aliases").ownFields := by
        rw [hagrees.aliases]
        exact List.mem_map_of_mem (mem_of_lookup hlookup)
      have hfresh := (alias_passes h hmem).fresh
      rw [hasOwn, Bool.eq_false_iff, ne_eq, List.contains_iff_mem] at hfresh
      exact (hfresh hname).elim

theorem selects_preset {raw : Val} {parsed : ParsedPresetDocument} (h : BlockPasses raw)
    (hparsed : raw.parsed = true) (hagrees : AgreesNames raw parsed) {name : String}
    (hname : name ∈ (raw.get "presets").ownFields.keys) :
    Selects raw parsed name name ↔ name ∉ PRESET_RESERVED_NAMES := by
  obtain ⟨p, hp, rfl⟩ := List.mem_map.mp hname
  constructor
  · exact fun hselects ↦ (presetCommand_safe (h.each p hp).name).mp hselects.command
  · exact fun hfree ↦ ⟨(presetCommand_safe (h.each p hp).name).mpr hfree,
      canonical_of_preset h hagrees hname, preset_stated hagrees (presets_nodup h hparsed) hname⟩

theorem aliases_nodup {raw : Val} (h : BlockPasses raw) (hparsed : raw.parsed = true) :
    (raw.get "aliases").ownFields.keys.Nodup := by
  rcases h.aliases with hundef | ⟨fs, hfs, -⟩
  · rw [hundef]
    exact List.nodup_nil
  · have hget := Val.parsed_get hparsed (k := "aliases") (by rw [hfs]; simp)
    rw [hfs] at hget ⊢
    exact (Val.parsed_obj.mp hget).1

/-- The parser keeps aliases clear of the subcommands. -/
theorem selects_alias {raw : Val} {parsed : ParsedPresetDocument} (h : BlockPasses raw)
    (hparsed : raw.parsed = true) (hagrees : AgreesNames raw parsed) {short target : String}
    (hmem : (short, .str target) ∈ (raw.get "aliases").ownFields) :
    Selects raw parsed short target := by
  obtain ⟨hsafe, hfree, hfresh, t, htarget, hdeclared⟩ := alias_passes h hmem
  obtain rfl := Val.str.inj htarget
  have hnodup : (parsed.aliases.map Prod.fst).Nodup := by
    have hkeys : (raw.get "aliases").ownFields.keys = parsed.aliases.map Prod.fst := by
      rw [hagrees.aliases, Fields.keys, List.map_map]
      rfl
    rw [← hkeys]
    exact aliases_nodup h hparsed
  have hlookup : parsed.aliases.lookup short = some target := by
    rw [hagrees.aliases] at hmem
    obtain ⟨p, hp, hsame⟩ := List.mem_map.mp hmem
    obtain ⟨rfl, hvalue⟩ := Prod.mk.inj hsame
    exact lookup_of_mem hnodup (Val.str.inj hvalue ▸ hp)
  refine ⟨(presetCommand_safe hsafe).mpr hfree, by rw [canonicalName, hlookup]; rfl, ?_⟩
  apply preset_stated hagrees (presets_nodup h hparsed)
  rwa [hasOwn, List.contains_iff_mem] at hdeclared

theorem block_selectable_iff {raw copied : Val} (h : BlockPasses raw) (hparsed : raw.parsed = true)
    (hcopy : normalizePresets raw = .ok copied) :
    Selectable raw copied ↔ Loadable raw ∧
      ∀ name ∈ (raw.get "presets").ownFields.keys, name ∉ PRESET_RESERVED_NAMES := by
  constructor
  · rintro ⟨parsed, hparse, hpresets, -⟩
    refine ⟨loadable_of_read h hparsed hcopy hparse, fun name hname ↦ ?_⟩
    obtain ⟨p, hp, rfl⟩ := List.mem_map.mp hname
    exact (presetCommand_safe (h.each p hp).name).mp (hpresets p.1 hname).command
  · rintro ⟨hloadable, hfree⟩
    obtain ⟨parsed, hparse, hagrees⟩ := block_read h hparsed hcopy hloadable
    refine ⟨parsed, hparse, fun name hname ↦ ?_, fun short target hmem ↦ ?_⟩
    · exact (selects_preset h hparsed hagrees hname).mpr (hfree name hname)
    · exact selects_alias h hparsed hagrees hmem

/-! ## Of every profile of an accepted spec -/

/-- Every name of a block selects what it names exactly when the copy is read at
all and no preset is called like a subcommand. -/
theorem accepted_selectable_iff {env : ClientEnv} {client : ClientFacts} {doc : Doc}
    {resolved vars dev vdev : Val} {profile : String} (h : Accepts env doc resolved)
    (hvars : normalize client resolved = .ok vars) (hdev : dev ∈ developersOf doc.val)
    (hvdev : vdev ∈ listOf (vars.get "devbox_developers"))
    (huser : vdev.get "user" = dev.get "user") (hcopied : presetsOf vdev profile ≠ .undef) :
    Selectable (presetsOf dev profile) (presetsOf vdev profile) ↔
      Loadable (presetsOf dev profile) ∧
        ∀ name ∈ ((presetsOf dev profile).get "presets").ownFields.keys,
          name ∉ PRESET_RESERVED_NAMES := by
  obtain ⟨hblock, hparsed, hcopy⟩ := accepted_block h hvars hdev hvdev huser hcopied
  exact block_selectable_iff hblock hparsed hcopy

theorem trimmedPreset_selectable :
    ∃ resolved vars dev vdev, Accepts homeEnv trimmedPreset resolved ∧
      normalize noClient resolved = .ok vars ∧ dev ∈ developersOf trimmedPreset.val ∧
      vdev ∈ listOf (vars.get "devbox_developers") ∧
      (Selectable (presetsOf dev "main") (presetsOf vdev "main") ↔
        Loadable (presetsOf dev "main") ∧
          ∀ name ∈ ((presetsOf dev "main").get "presets").ownFields.keys,
            name ∉ PRESET_RESERVED_NAMES) := by
  obtain ⟨resolved, vars, dev, vdev, haccepts, hvars, hdev, hvdev, huser, hcopied⟩ :=
    trimmedPreset_copied
  exact ⟨resolved, vars, dev, vdev, haccepts, hvars, hdev, hvdev,
    accepted_selectable_iff haccepts hvars hdev hvdev huser hcopied⟩

/-- The block of `trimmedPreset` with its preset called like a subcommand. -/
def statusPreset : Doc := ⟨specWith []
    [("agent_versions", .obj [("omp", .str OMP_MODEL_PRESETS_OMP_VERSION)]),
     ("agent_profiles", .obj [("main", .obj
      [("provider", "omp"),
       ("omp_model_presets", .obj
        [("default_preset", "status"),
         ("presets", .obj [("status",
          .obj (OMP_MODEL_ROLE_IDS.map fun role ↦ (role, "anthropic/opus:high")))])])])])],
  by decide +kernel⟩

/-- The client accepts the name, and `/preset status` shows the status. -/
theorem statusPreset_captured :
    ∃ resolved vars vdev, Accepts homeEnv statusPreset resolved ∧
      normalize noClient resolved = .ok vars ∧ vdev ∈ listOf (vars.get "devbox_developers") ∧
      "status" ∈ ((presetsOf vdev "main").get "presets").ownFields.keys ∧
      presetCommand "status" = .status ∧
      ∀ dev ∈ developersOf statusPreset.val,
        ¬Selectable (presetsOf dev "main") (presetsOf vdev "main") := by
  have hread : ((varsOf homeEnv noClient statusPreset.val).map fun vars ↦
      (listOf (vars.get "devbox_developers")).map fun vdev ↦
        ((presetsOf vdev "main").get "presets").ownFields.keys) = some [["status"]] := by
    decide +kernel
  obtain ⟨vars, hvars, hread⟩ := Option.map_eq_some_iff.mp hread
  obtain ⟨vdev, hvdev, hkeys⟩ := List.mem_map.mp (hread ▸ List.mem_singleton_self _)
  obtain ⟨resolved, haccepts, hnormalize⟩ := vars_eq_some hvars
  refine ⟨resolved, vars, vdev, haccepts, hnormalize, hvdev, ?_, by decide +kernel, ?_⟩
  · rw [hkeys]
    exact List.mem_singleton_self _
  · rintro dev hdev ⟨parsed, -, hpresets, -⟩
    obtain rfl := List.mem_singleton.mp hdev
    have hcommand := (hpresets "status" (by decide +kernel)).command
    have hstatus : presetCommand "status" = .status := by decide +kernel
    rw [hstatus] at hcommand
    cases hcommand

end RemoteDevbox.Box
