import Mathlib.Algebra.Order.BigOperators.Group.List
import RemoteDevbox.Client.Config

namespace RemoteDevbox.Client.Editors

open Js

/-!
# Connections in the editor's settings

One entry for each profile. The entries of an earlier run are told from the
developer's own by the beginning of their host.
-/

section Source

def projectEntries (p : Profile) : Val :=
  .arr (p.projects.map fun pr ↦ .obj [("paths", .arr [.str ("~/projects/" ++ pr.name)])])

def zedConnection (cfg : Config) (p : Profile) : Val :=
  .obj [("host", .str (cfg.hostPrefix ++ "-" ++ p.user)),
    ("nickname", .str ("remote-devbox · " ++ p.user)), ("projects", projectEntries p)]

def zedConnections (cfg : Config) : List Val := cfg.profiles.map (zedConnection cfg)

/-- ``String(c.host ?? "").startsWith(`${cfg.prefix}-`)`` -/
def isOurs (cfg : Config) (c : Val) : Js Bool := do
  let host ← c.read "host"
  let text ← (host.orElse (.str "")).toStr
  return (cfg.hostPrefix ++ "-").toList.isPrefixOf text.toList

def theirs (cfg : Config) : List Val → Js (List Val)
  | [] => .ok []
  | c :: cs => do
      let ours ← isOurs cfg c
      let rest ← theirs cfg cs
      return if ours then rest else c :: rest

/-- Anything but a list counts as none. -/
def priorConnections (existing : Fields) : List Val :=
  match Fields.lookup existing "ssh_connections" with
  | .arr cs => cs
  | _ => []

def mergeZedSettings (existing : Fields) (cfg : Config) : Js Fields := do
  let kept ← theirs cfg (priorConnections existing)
  return Fields.set existing "ssh_connections" (.arr (kept ++ zedConnections cfg))

end Source

/-! ## What a merge is to do -/

section Meaning

variable (cfg : Config)

/-- The entry's host is the one at which the CLI reaches the profile. -/
def isFor (p : Profile) (c : Val) : Bool := (c.get "host").isStrLit (hostFor cfg p.user)

def belongs (c : Val) : Bool := cfg.profiles.any fun p ↦ isFor cfg p c

/-- The entries of no configured profile. -/
def foreign (settings : Fields) : List Val :=
  (priorConnections settings).filter fun c ↦ !belongs cfg c

/-- The account's name already starts as the aliases do. -/
def carriesPrefix (user : String) : Bool :=
  user == cfg.hostPrefix || (cfg.hostPrefix ++ "-").toList.isPrefixOf user.toList

structure Merged (existing result : Fields) : Prop where
  foreign_kept : foreign cfg result = foreign cfg existing
  one_each : ∀ p ∈ cfg.profiles, ∃ c, (priorConnections result).filter (isFor cfg p) = [c] ∧
    c.get "projects" = projectEntries p
  no_more : ((priorConnections result).filter (belongs cfg)).length = cfg.profiles.length
  others_kept : result.filter (fun q ↦ q.1 != "ssh_connections") =
    existing.filter (fun q ↦ q.1 != "ssh_connections")
  settled : mergeZedSettings result cfg = .ok result

def Meets (existing : Fields) : Prop :=
  ∃ result, mergeZedSettings existing cfg = .ok result ∧ Merged cfg existing result

end Meaning

variable {cfg : Config}

/-! ## What is kept -/

theorem theirs_eq {cs : List Val} (h : ∀ c ∈ cs, isOurs cfg c = .ok (belongs cfg c)) :
    theirs cfg cs = .ok (cs.filter fun c ↦ !belongs cfg c) := by
  induction cs with
  | nil => rfl
  | cons c cs ih =>
      rw [List.forall_mem_cons] at h
      rw [theirs, h.1, ih h.2, List.filter_cons]
      cases belongs cfg c <;> rfl

theorem theirs_spec {cs kept : List Val} (h : theirs cfg cs = .ok kept) :
    kept.Sublist cs ∧ ∀ c ∈ kept, isOurs cfg c = .ok false := by
  induction cs generalizing kept with
  | nil =>
      obtain rfl := Except.ok.inj h
      exact ⟨List.Sublist.refl _, fun c hc ↦ absurd hc List.not_mem_nil⟩
  | cons c cs ih =>
      simp only [theirs, bind_eq_ok] at h
      obtain ⟨ours, hours, rest, hrest, h⟩ := h
      obtain ⟨hsub, hkept⟩ := ih hrest
      cases ours with
      | true =>
          obtain rfl := Except.ok.inj h
          exact ⟨hsub.cons _, hkept⟩
      | false =>
          obtain rfl := Except.ok.inj h
          exact ⟨hsub.cons_cons _, List.forall_mem_cons.mpr ⟨hours, hkept⟩⟩

theorem priorConnections_set (existing : Fields) (cs : List Val) :
    priorConnections (Fields.set existing "ssh_connections" (.arr cs)) = cs := by
  rw [priorConnections, Fields.lookup_set, if_pos rfl]

theorem filter_set (existing : Fields) (k : String) (v : Val) :
    (Fields.set existing k v).filter (fun q ↦ q.1 != k) = existing.filter (fun q ↦ q.1 != k) := by
  induction existing with
  | nil => simp [Fields.set]
  | cons q existing ih =>
      obtain ⟨k', v'⟩ := q
      rw [Fields.set]
      split
      · rename_i heq
        simp [heq]
      · rw [List.filter_cons, List.filter_cons, ih]

theorem set_set (existing : Fields) (k : String) (v : Val) :
    Fields.set (Fields.set existing k v) k v = Fields.set existing k v := by
  induction existing with
  | nil => simp [Fields.set]
  | cons q existing ih =>
      obtain ⟨k', v'⟩ := q
      by_cases hk : k' = k
      · simp [Fields.set, hk]
      · simp [Fields.set, hk, ih]

theorem merge_eq_ok {existing result : Fields} (h : mergeZedSettings existing cfg = .ok result) :
    ∃ kept, theirs cfg (priorConnections existing) = .ok kept ∧
      result = Fields.set existing "ssh_connections" (.arr (kept ++ zedConnections cfg)) := by
  simp only [mergeZedSettings, bind_eq_ok] at h
  obtain ⟨kept, hkept, h⟩ := h
  exact ⟨kept, hkept, (Except.ok.inj h).symm⟩

/-! ## Names that do not carry the prefix -/

theorem hostFor_eq {user : String} (h : carriesPrefix cfg user = false) :
    hostFor cfg user = cfg.hostPrefix ++ "-" ++ user := by
  rw [carriesPrefix] at h
  rw [hostFor, h]
  rfl

theorem hostFor_length (user : String) :
    (hostFor cfg user).length ≤ (cfg.hostPrefix ++ "-" ++ user).length ∧
      (carriesPrefix cfg user = true →
        (hostFor cfg user).length < (cfg.hostPrefix ++ "-" ++ user).length) := by
  cases hcarries : carriesPrefix cfg user with
  | false =>
      rw [hostFor_eq hcarries]
      exact ⟨le_refl _, fun h ↦ absurd h (by decide)⟩
  | true =>
      have hself : hostFor cfg user = user := by
        rw [carriesPrefix] at hcarries
        rw [hostFor, hcarries]
        rfl
      have hdash : "-".length = 1 := rfl
      simp only [hself, String.length_append, hdash]
      omega

theorem isFor_iff {p : Profile} {c : Val} :
    isFor cfg p c = true ↔ c.get "host" = .str (hostFor cfg p.user) := by
  rw [isFor]
  cases c.get "host" <;> simp [Val.isStrLit]

theorem belongs_iff {c : Val} :
    belongs cfg c = true ↔ ∃ p ∈ cfg.profiles, c.get "host" = .str (hostFor cfg p.user) := by
  rw [belongs, List.any_eq_true]
  simp only [isFor_iff]

theorem isFor_zedConnection {p q : Profile} : isFor cfg p (zedConnection cfg q) = true ↔
    cfg.hostPrefix ++ "-" ++ q.user = hostFor cfg p.user := by
  rw [isFor_iff]
  exact ⟨Val.str.inj, congrArg Val.str⟩

theorem isOurs_of_host {c : Val} {user : String}
    (h : c.get "host" = .str (cfg.hostPrefix ++ "-" ++ user)) : isOurs cfg c = .ok true := by
  have hread : c.read "host" = .ok (.str (cfg.hostPrefix ++ "-" ++ user)) := by
    cases c with
    | obj fs => rw [← h]; rfl
    | _ => cases h
  rw [isOurs, hread]
  have hstarts : (cfg.hostPrefix ++ "-").toList.isPrefixOf
      (cfg.hostPrefix ++ "-" ++ user).toList = true := by
    have hsplit : (cfg.hostPrefix ++ "-" ++ user).toList =
        (cfg.hostPrefix ++ "-").toList ++ user.toList := String.toList_append
    rw [List.isPrefixOf_iff_prefix, hsplit]
    exact List.prefix_append _ _
  have htext : (Val.orElse (.str (cfg.hostPrefix ++ "-" ++ user)) (.str "")).toStr =
      .ok (cfg.hostPrefix ++ "-" ++ user) := rfl
  rw [ok_bind, htext, ok_bind, hstarts]
  rfl

/-- The profiles have different names, and none carries the prefix. -/
def Plain (cfg : Config) : Prop :=
  (cfg.profiles.map (·.user)).Nodup ∧ ∀ p ∈ cfg.profiles, carriesPrefix cfg p.user = false

theorem belongs_zedConnections (hplain : Plain cfg) {c : Val} (hc : c ∈ zedConnections cfg) :
    belongs cfg c = true := by
  obtain ⟨p, hp, rfl⟩ := List.mem_map.mp hc
  rw [belongs_iff]
  exact ⟨p, hp, by rw [hostFor_eq (hplain.2 p hp)]; rfl⟩

theorem filter_zedConnections (hplain : Plain cfg) {p : Profile} (hp : p ∈ cfg.profiles) :
    (zedConnections cfg).filter (isFor cfg p) = [zedConnection cfg p] := by
  have hsame : ∀ q ∈ cfg.profiles,
      (isFor cfg p (zedConnection cfg q) = true ↔ q.user = p.user) := by
    intro q _
    rw [isFor_zedConnection, hostFor_eq (hplain.2 p hp)]
    exact ⟨fun h ↦ String.append_right_inj _ |>.mp h, fun h ↦ by rw [h]⟩
  have hnodup : cfg.profiles.Nodup := List.Nodup.of_map _ hplain.1
  have hinj : ∀ q ∈ cfg.profiles, q.user = p.user → q = p := fun q hq h ↦
    List.inj_on_of_nodup_map hplain.1 hq hp h
  rw [zedConnections, List.filter_map]
  have hone : cfg.profiles.filter (isFor cfg p ∘ zedConnection cfg) = [p] := by
    refine eq_singleton_of_nodup (hnodup.filter _) (fun hnil ↦ ?_) fun q hq ↦ ?_
    · have hmem : p ∈ cfg.profiles.filter (isFor cfg p ∘ zedConnection cfg) :=
        List.mem_filter.mpr ⟨hp, (hsame p hp).mpr rfl⟩
      rw [hnil] at hmem
      exact List.not_mem_nil hmem
    · obtain ⟨hq, hfor⟩ := List.mem_filter.mp hq
      exact hinj q hq ((hsame q hq).mp hfor)
  rw [hone, List.map_singleton]

/-! ## The merge meets its purpose -/

theorem meets_of_plain (hplain : Plain cfg) {settings : Fields}
    (hforeign : ∀ c ∈ foreign cfg settings, isOurs cfg c = .ok false) : Meets cfg settings := by
  have hkept : ∀ cs : List Val, (∀ c ∈ cs, belongs cfg c = false → isOurs cfg c = .ok false) →
      theirs cfg cs = .ok (cs.filter fun c ↦ !belongs cfg c) := by
    intro cs hcs
    refine theirs_eq fun c hc ↦ ?_
    cases hb : belongs cfg c with
    | false => exact hcs c hc hb
    | true =>
        obtain ⟨p, hp, hhost⟩ := belongs_iff.mp hb
        rw [hostFor_eq (hplain.2 p hp)] at hhost
        exact isOurs_of_host hhost
  have hprior := hkept (priorConnections settings) fun c hc hb ↦
    hforeign c (List.mem_filter.mpr ⟨hc, by rw [hb]; rfl⟩)
  have hnone : ∀ c ∈ foreign cfg settings, belongs cfg c = false := fun c hc ↦ by
    simpa using (List.mem_filter.mp hc).2
  have hours : ∀ c ∈ zedConnections cfg, belongs cfg c = true := fun _ ↦
    belongs_zedConnections hplain
  have hagain := hkept (foreign cfg settings ++ zedConnections cfg) fun c hc hb ↦ by
    rcases List.mem_append.mp hc with hc | hc
    · exact hforeign c hc
    · rw [hours c hc] at hb
      cases hb
  have hfilter : (foreign cfg settings ++ zedConnections cfg).filter
      (fun c ↦ !belongs cfg c) = foreign cfg settings := by
    rw [List.filter_append, List.filter_eq_self.mpr fun c hc ↦ by rw [hnone c hc]; rfl,
      List.filter_eq_nil_iff.mpr fun c hc ↦ by rw [hours c hc]; decide, List.append_nil]
  refine ⟨_, by rw [mergeZedSettings, hprior]; rfl, ?_, fun p hp ↦ ?_, ?_, filter_set _ _ _, ?_⟩
  · rw [foreign, priorConnections_set]
    exact hfilter
  · have hnot : ∀ c ∈ foreign cfg settings, ¬ isFor cfg p c = true := fun c hc hfor ↦ by
      have hyes : belongs cfg c = true := List.any_eq_true.mpr ⟨p, hp, hfor⟩
      rw [hnone c hc] at hyes
      cases hyes
    refine ⟨zedConnection cfg p, ?_, rfl⟩
    rw [priorConnections_set, List.filter_append]
    exact (congrArg₂ _ (List.filter_eq_nil_iff.mpr hnot) (filter_zedConnections hplain hp)).trans
      (List.nil_append _)
  · rw [priorConnections_set, List.filter_append,
      List.filter_eq_nil_iff.mpr (fun c hc ↦ by rw [hnone c hc]; decide),
      List.filter_eq_self.mpr hours, List.nil_append, zedConnections, List.length_map]
  · rw [mergeZedSettings, priorConnections_set]
    exact (congrArg (· >>= _) hagain).trans (by rw [hfilter]; exact congrArg _ (set_set _ _ _))

/-! ## Where it does not -/

theorem kept_foreign {settings : Fields}
    (hnone : ∀ c ∈ priorConnections settings, belongs cfg c = false) (h : Meets cfg settings) :
    ∃ kept : List Val, (∀ c ∈ kept, belongs cfg c = false) ∧
      (∀ p ∈ cfg.profiles, ∃ c, (kept ++ zedConnections cfg).filter (isFor cfg p) = [c]) ∧
      ((kept ++ zedConnections cfg).filter (belongs cfg)).length = cfg.profiles.length := by
  obtain ⟨result, hmerge, hmerged⟩ := h
  obtain ⟨kept, hkept, rfl⟩ := merge_eq_ok hmerge
  have hone := hmerged.one_each
  have hmore := hmerged.no_more
  rw [priorConnections_set] at hone hmore
  refine ⟨kept, fun c hc ↦ hnone c ((theirs_spec hkept).1.subset hc), fun p hp ↦ ?_, hmore⟩
  obtain ⟨c, hc, _⟩ := hone p hp
  exact ⟨c, hc⟩

/-- Where the list holds no entry of a profile yet, one for each takes a host that no two share. -/
theorem plain_of_meets {settings : Fields}
    (hnone : ∀ c ∈ priorConnections settings, belongs cfg c = false) (h : Meets cfg settings) :
    Plain cfg := by
  obtain ⟨kept, hkept, hone, hmore⟩ := kept_foreign hnone h
  have hlocal : kept.filter (belongs cfg) = [] :=
    List.filter_eq_nil_iff.mpr fun c hc ↦ by rw [hkept c hc]; decide
  have hfor : ∀ p ∈ cfg.profiles, kept.filter (isFor cfg p) = [] := fun p hp ↦
    List.filter_eq_nil_iff.mpr fun c hc hfor ↦ by
      have hyes : belongs cfg c = true := List.any_eq_true.mpr ⟨p, hp, hfor⟩
      rw [hkept c hc] at hyes
      cases hyes
  have hall : ∀ q ∈ cfg.profiles, belongs cfg (zedConnection cfg q) = true := by
    rw [List.filter_append, hlocal, List.nil_append, ← List.length_map (zedConnection cfg)] at hmore
    exact fun q hq ↦ List.length_filter_eq_length_iff.mp hmore _ (List.mem_map_of_mem hq)
  let written := cfg.profiles.map fun q ↦ cfg.hostPrefix ++ "-" ++ q.user
  let wanted := cfg.profiles.map fun q ↦ hostFor cfg q.user
  have hsubset : written ⊆ wanted := by
    intro host hhost
    obtain ⟨q, hq, rfl⟩ := List.mem_map.mp hhost
    obtain ⟨p, hp, heq⟩ := belongs_iff.mp (hall q hq)
    exact List.mem_map.mpr ⟨p, hp, (Val.str.inj heq).symm⟩
  have hnodup : written.Nodup := by
    rw [List.nodup_iff_count_eq_one]
    intro host hhost
    obtain ⟨p, hp, rfl⟩ := List.mem_map.mp (hsubset hhost)
    obtain ⟨c, hc⟩ := hone p hp
    rw [List.filter_append, hfor p hp, List.nil_append, zedConnections, List.filter_map] at hc
    have hlength := congrArg List.length hc
    rw [List.length_map, ← List.countP_eq_length_filter] at hlength
    rw [List.count, List.countP_map]
    rw [← hlength.trans (List.length_singleton)]
    refine List.countP_congr fun q hq ↦ ?_
    rw [Function.comp_apply, Function.comp_apply, isFor_zedConnection, beq_iff_eq]
  have hperm : written.Perm wanted :=
    (hnodup.subperm hsubset).perm_of_length_le (by simp [written, wanted])
  have hsum : (written.map String.length).sum = (wanted.map String.length).sum :=
    (hperm.map String.length).sum_eq
  refine ⟨?_, fun p hp ↦ ?_⟩
  · refine List.Nodup.of_map (fun user ↦ cfg.hostPrefix ++ "-" ++ user) ?_
    rwa [List.map_map]
  · by_contra hcarries
    rw [Bool.not_eq_false] at hcarries
    refine absurd hsum (Nat.ne_of_gt ?_)
    rw [List.map_map, List.map_map]
    exact List.sum_lt_sum _ _ (fun q _ ↦ (hostFor_length q.user).1)
      ⟨p, hp, (hostFor_length p.user).2 hcarries⟩

theorem foreign_of_meets (hplain : Plain cfg) {settings : Fields} (h : Meets cfg settings) :
    ∀ c ∈ foreign cfg settings, isOurs cfg c = .ok false := by
  obtain ⟨result, hmerge, hmerged⟩ := h
  obtain ⟨kept, hkept, rfl⟩ := merge_eq_ok hmerge
  have hsame := hmerged.foreign_kept
  have hnone : (zedConnections cfg).filter (fun c ↦ !belongs cfg c) = [] :=
    List.filter_eq_nil_iff.mpr fun c hc ↦ by rw [belongs_zedConnections hplain hc]; decide
  rw [foreign, priorConnections_set, List.filter_append, hnone, List.append_nil] at hsame
  intro c hc
  rw [← hsame] at hc
  exact (theirs_spec hkept).2 c (List.mem_filter.mp hc).1

/-- Whatever entries of configured profiles the settings hold besides. -/
theorem zed_merge_exact_iff (cfg : Config) (existing : Fields) :
    (∀ settings, foreign cfg settings = foreign cfg existing → Meets cfg settings) ↔
      Plain cfg ∧ ∀ c ∈ foreign cfg existing, isOurs cfg c = .ok false := by
  constructor
  · intro h
    have hplain : Plain cfg := by
      let bare : Fields := [("ssh_connections", .arr (foreign cfg existing))]
      have hprior : priorConnections bare = foreign cfg existing := rfl
      have hforeign : foreign cfg bare = foreign cfg existing := by
        rw [foreign, hprior, foreign, List.filter_filter]
        simp
      refine @plain_of_meets cfg bare (fun c hc ↦ ?_) (h bare hforeign)
      obtain ⟨_, hno⟩ := List.mem_filter.mp (show c ∈ foreign cfg existing from hc)
      rwa [Bool.not_eq_true'] at hno
    exact ⟨hplain, foreign_of_meets hplain (h existing rfl)⟩
  · rintro ⟨hplain, hforeign⟩ settings hsame
    exact meets_of_plain hplain (hsame ▸ hforeign)

/-- An account whose name carries the prefix, and a host that only looks alike. -/
theorem admin_and_staging :
    ¬ Meets ⟨"devbox", "devbox-admin", [⟨"devbox-admin", [], [], false, none, none⟩], none⟩ [] ∧
    ¬ Meets ⟨"devbox", "ada", [⟨"ada", [], [], false, none, none⟩], none⟩
      [("ssh_connections", .arr [.obj [("host", .str "devbox-staging")]])] := by
  constructor
  · rintro ⟨result, hmerge, hmerged⟩
    obtain rfl := Except.ok.inj hmerge
    exact absurd hmerged.no_more (by decide +kernel)
  · rintro ⟨result, hmerge, hmerged⟩
    obtain rfl := Except.ok.inj hmerge
    exact absurd (congrArg List.length hmerged.foreign_kept) (by decide +kernel)

end RemoteDevbox.Client.Editors
