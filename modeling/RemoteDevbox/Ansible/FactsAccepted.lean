import RemoteDevbox.Ansible.HealthFacts
import RemoteDevbox.Spec.Closure

namespace RemoteDevbox.Ansible

open Js Client Spec Box

/-!
# When the doctor accepts the health facts

The rest of an accepted configuration is always in form. Three kinds of name
decide: an account's length, a memory instance's characters, and a project's
capitals and the hyphens it shares with its account.
-/

def textOf : Val → String
  | .str s => s
  | _ => ""

/-- The parts of a unit name that the account and the project make up. -/
def rcLabel (row : Val) : String × String :=
  (textOf (row.get "agent"), textOf (row.get "user") ++ "-" ++ textOf (row.get "project"))

/-- The names that fit the doctor's patterns. -/
structure FactNames (vars : Val) : Prop where
  servers : ∀ server ∈ mcpServers vars, (textOf (server.get "user")).length ≤ 32
  owners : ∀ row ∈ memoryInstances vars, (textOf row.user).length ≤ 32
  instances : ∀ row ∈ memoryInstances vars, ∀ c ∈ row.name.toList, idTail c = true
  count : (memoryInstances vars).length ≤ 56459
  users : ∀ row ∈ rcRows vars, (textOf (row.get "user")).length ≤ 32
  projects : ∀ row ∈ rcRows vars,
    ∀ c ∈ (textOf (row.get "project")).toList, Regex.isUpper c = false
  units : ((rcRows vars).map rcLabel).Nodup

/-! ## Names that are put together -/

/-- Ids with different heads differ. -/
theorem disjoint_of_heads {p q : String} {xs ys : List String}
    (hx : ∀ id ∈ xs, p.toList <+: id.toList) (hy : ∀ id ∈ ys, q.toList <+: id.toList)
    (hpq : ¬ p.toList <+: q.toList) (hqp : ¬ q.toList <+: p.toList) : xs.Disjoint ys := by
  intro id hidx hidy
  exact (List.prefix_or_prefix_of_prefix (hx id hidx) (hy id hidy)).elim hpq hqp

theorem prefix_append (p rest : String) : p.toList <+: (p ++ rest).toList := by
  rw [String.toList_append]
  exact List.prefix_append _ _

/-- The component of one MCP server. -/
def mcpOf (server : Val) : Val :=
  let user := textOf (server.get "user")
  .obj
    [("id", .str ("browser.mcp." ++ user)),
     ("profile", .str user),
     ("unit", .str ("devbox-playwright-mcp-" ++ user ++ ".service")),
     ("recovery", "automatic")]

def memoryOf (row : MemoryRow) : Val :=
  let user := textOf row.user
  .obj
    [("id", .str ("memory." ++ user ++ "." ++ row.name)),
     ("profile", .str user),
     ("unit", .str ("hindsight-" ++ row.name ++ ".service")),
     ("unitScope", "user"),
     ("listeners", .arr [.obj (tcpListener "127.0.0.1" (.num row.port) "hindsight" ++
       ([("processMatch", .str "prefix")] : Fields))]),
     ("recovery", "manual")]

def rcUnitOf (row : Val) : String :=
  "agent-rc-" ++ (rcLabel row).1 ++ "-" ++ (rcLabel row).2 ++ ".service"

def rcOf (row : Val) : Val :=
  .obj
    [("id", .str ("remote-control." ++ rcUnitOf row)),
     ("profile", .str (textOf (row.get "user"))),
     ("unit", .str (rcUnitOf row)),
     ("recovery", "automatic")]

theorem mapM_eq_map {α β : Type} {f : α → Js β} {g : α → β} {xs : List α}
    (h : ∀ x ∈ xs, f x = .ok (g x)) : xs.mapM f = .ok (xs.map g) := by
  refine mapM_eq_ok.mpr ?_
  induction xs with
  | nil => exact .nil
  | cons x xs ih =>
      exact .cons (h x List.mem_cons_self) (ih fun y hy ↦ h y (List.mem_cons_of_mem _ hy))

theorem idOf_mcpOf (server : Val) :
    idOf (mcpOf server) = "browser.mcp." ++ textOf (server.get "user") := rfl

theorem idOf_memoryOf (row : MemoryRow) :
    idOf (memoryOf row) = "memory." ++ textOf row.user ++ "." ++ row.name := rfl

theorem idOf_rcOf (row : Val) : idOf (rcOf row) = "remote-control." ++ rcUnitOf row := rfl

section Rows

variable {vars : Val} (h : FactRows vars)
include h

/-- Every component the template lists. -/
theorem healthComponents_eq (tailnet : Ipv4) :
    healthComponents tailnet vars = .ok (.obj
      [("schemaVersion", 1),
       ("components", .arr (desktopComponents tailnet vars ++ failoverComponents vars ++
         (mcpServers vars).map mcpOf ++ (memoryInstances vars).map memoryOf ++
         (rcRows vars).map rcOf))]) := by
  have hmcp : (mcpServers vars).mapM mcpComponent = .ok ((mcpServers vars).map mcpOf) := by
    refine mapM_eq_map fun server hserver ↦ ?_
    obtain ⟨user, huser, _⟩ := h.servers server hserver
    simp [mcpComponent, mcpOf, huser, text, textOf]
  have hmemory : (memoryInstances vars).mapM memoryComponent =
      .ok ((memoryInstances vars).map memoryOf) := by
    refine mapM_eq_map fun row hrow ↦ ?_
    obtain ⟨user, huser, _⟩ := h.memory row hrow
    simp [memoryComponent, memoryOf, huser, text, textOf]
  have hrc : (rcRows vars).mapM rcComponent = .ok ((rcRows vars).map rcOf) := by
    refine mapM_eq_map fun row hrow ↦ ?_
    obtain ⟨agent, user, project, hagent, huser, hproject, _⟩ := h.rc row hrow
    simp [rcComponent, rcUnitName, rcOf, rcUnitOf, rcLabel, hagent, huser, hproject, text, textOf,
      String.append_assoc]
  simp only [healthComponents, hmcp, hmemory, hrc, ok_bind, pure_eq_ok]

theorem mcp_wellFormed_iff {server : Val} (hserver : server ∈ mcpServers vars) :
    WellFormed (mcpOf server) ↔ (textOf (server.get "user")).length ≤ 32 := by
  obtain ⟨user, huser, hname⟩ := h.servers server hserver
  rw [mcpOf, unitComponent_wellFormed, test_append_id (by decide +kernel), huser, textOf,
    test_profile hname]
  have hchars := nameTail_of_userName hname
  constructor
  · exact fun hall ↦ hall.2.1
  · intro hshort
    refine ⟨fun c hc ↦ idTail_of_nameTail (hchars c hc), hshort, test_unit ?_ ?_⟩
    · simp
    · intro c hc
      rw [String.toList_append, List.mem_append] at hc
      rcases hc with hc | hc
      · exact List.all_eq_true.mp (by decide +kernel) c hc
      · exact unitChar_of_wordChar (wordChar_of_idTail (idTail_of_nameTail (hchars c hc)))

theorem memory_wellFormed_iff {row : MemoryRow} (hrow : row ∈ memoryInstances vars) :
    WellFormed (memoryOf row) ↔
      (textOf row.user).length ≤ 32 ∧ (∀ c ∈ row.name.toList, idTail c = true) ∧
        isPort (.num row.port) = true := by
  obtain ⟨user, huser, hname⟩ := h.memory row hrow
  have hchars := nameTail_of_userName hname
  have hid : (memoryOf row).get "id" = .str ("memory." ++ (user ++ "." ++ row.name)) := by
    simp [memoryOf, huser, textOf, String.append_assoc, Val.get, Fields.lookup]
  have hprofile : (memoryOf row).get "profile" = .str user := by
    simp [memoryOf, huser, textOf, Val.get, Fields.lookup]
  have hlisteners : ListenersOk ((memoryOf row).get "listeners") ↔
      isPort (.num row.port) = true := by
    have hlist : (memoryOf row).get "listeners" = .arr [.obj (tcpListener "127.0.0.1"
        (.num row.port) "hindsight" ++ ([("processMatch", .str "prefix")] : Fields))] := rfl
    have hone := tcpListener_returns "127.0.0.1" "hindsight" (.num row.port)
      (by decide +kernel) (by decide +kernel) (.inr rfl)
    rw [hlist, ← hone]
    simp [ListenersOk]
  rw [huser, textOf, ← test_profile hname, memoryOf, wellFormed_obj hid, parseBody_returns,
    test_append_id (by decide +kernel)]
  change _ ∧ Stated PROFILE_RE ((memoryOf row).get "profile") ∧ _ ∧ Stated UNIT_RE _ ∧ _ ∧
    ListenersOk ((memoryOf row).get "listeners") ↔ _
  rw [hlisteners, hprofile, stated_str]
  constructor
  · rintro ⟨hall, hshort, _, _, _, hport⟩
    refine ⟨hshort, fun c hc ↦ hall c ?_, hport⟩
    rw [String.toList_append]
    exact List.mem_append_right _ hc
  · rintro ⟨hshort, hinstance, hport⟩
    refine ⟨?_, hshort, recovery_returns _ (by simp), stated_str.mpr (test_unit ?_ ?_),
      .inr (.inr ⟨rfl, ?_⟩), hport⟩
    · intro c hc
      simp only [String.toList_append, List.mem_append] at hc
      rcases hc with (hc | hc) | hc
      · exact idTail_of_nameTail (hchars c hc)
      · exact List.all_eq_true.mp (by decide +kernel) c hc
      · exact hinstance c hc
    · simp
    · intro c hc
      rw [String.toList_append, List.mem_append] at hc
      rcases hc with hc | hc
      · exact List.all_eq_true.mp (by decide +kernel) c hc
      · exact unitChar_of_wordChar (wordChar_of_idTail (hinstance c hc))
    · change (memoryOf row).get "profile" ≠ _
      rw [hprofile]
      simp

theorem rc_wellFormed_iff {row : Val} (hrow : row ∈ rcRows vars) :
    WellFormed (rcOf row) ↔ (textOf (row.get "user")).length ≤ 32 ∧
      ∀ c ∈ (textOf (row.get "project")).toList, Regex.isUpper c = false := by
  obtain ⟨agent, user, project, hagent, huser, hproject, hprovider, hname, hprojectName⟩ :=
    h.rc row hrow
  have hchars := nameTail_of_userName hname
  have hword : ∀ c ∈ project.toList, wordChar c = true :=
    (Regex.isMatch_plus_cls.mp hprojectName).2
  have hunit : rcUnitOf row = "agent-rc-" ++ agent ++ "-" ++ user ++ "-" ++ project ++ ".service" := by
    simp [rcUnitOf, rcLabel, hagent, huser, hproject, textOf, String.append_assoc]
  have hagentChars : ∀ c ∈ agent.toList, idTail c = true := by
    have hall : ∀ a ∈ PROVIDERS, a.toList.all idTail = true := by decide +kernel
    exact List.all_eq_true.mp (hall agent hprovider)
  have hfixed : ∀ p ∈ ["agent-rc-", "-", ".service"], p.toList.all idTail = true := by
    decide +kernel
  rw [rcOf, unitComponent_wellFormed, test_append_id (by decide +kernel), hunit, huser, hproject,
    textOf, textOf, test_profile hname]
  constructor
  · rintro ⟨hall, hshort, _⟩
    refine ⟨hshort, fun c hc ↦ (idTail_iff_of_wordChar (hword c hc)).mp (hall c ?_)⟩
    simp only [String.toList_append, List.mem_append]
    tauto
  · rintro ⟨hshort, hlower⟩
    have hall : ∀ c ∈ ("agent-rc-" ++ agent ++ "-" ++ user ++ "-" ++ project).toList,
        idTail c = true := by
      intro c hc
      simp only [String.toList_append, List.mem_append] at hc
      rcases hc with ((((hc | hc) | hc) | hc) | hc) | hc
      · exact List.all_eq_true.mp (hfixed _ (by simp)) c hc
      · exact hagentChars c hc
      · exact List.all_eq_true.mp (hfixed "-" (by simp)) c hc
      · exact idTail_of_nameTail (hchars c hc)
      · exact List.all_eq_true.mp (hfixed "-" (by simp)) c hc
      · exact (idTail_iff_of_wordChar (hword c hc)).mpr (hlower c hc)
    refine ⟨?_, hshort, test_unit ?_ ?_⟩
    · intro c hc
      rw [String.toList_append, List.mem_append] at hc
      rcases hc with hc | hc
      · exact hall c hc
      · exact List.all_eq_true.mp (hfixed _ (by simp)) c hc
    · simp
    · exact fun c hc ↦ unitChar_of_wordChar (wordChar_of_idTail (hall c hc))

theorem mcpIds_nodup : ((mcpServers vars).map fun server ↦ idOf (mcpOf server)).Nodup := by
  refine nodup_map_of h.serversNodup ?_
  intro s hs t ht heq
  obtain ⟨user, huser, _⟩ := h.servers s hs
  obtain ⟨user', huser', _⟩ := h.servers t ht
  rw [idOf_mcpOf, idOf_mcpOf, huser, huser'] at heq
  have hname : user = user' := (String.append_right_inj _).mp heq
  rw [huser, huser', hname]

/-- An account name has no dot, so the first one ends it. -/
theorem memoryIds_nodup :
    ((memoryInstances vars).map fun row ↦ idOf (memoryOf row)).Nodup := by
  refine nodup_map_of h.memoryNodup ?_
  intro r hr t ht heq
  obtain ⟨user, huser, hname⟩ := h.memory r hr
  obtain ⟨user', huser', hname'⟩ := h.memory t ht
  have hdot : ∀ u : String, Text.test USERNAME_RE u = true → '.' ∉ u.toList := by
    intro u hu hmem
    exact absurd (nameTail_of_userName hu '.' hmem) (by decide)
  rw [idOf_memoryOf, idOf_memoryOf, huser, huser'] at heq
  have hlists := congrArg String.toList heq
  simp only [textOf, String.toList_append, List.append_assoc, List.append_cancel_left_eq] at hlists
  obtain ⟨hu, hn⟩ := (append_sep_inj (hdot user hname) (hdot user' hname')).mp hlists
  rw [huser, huser', String.toList_inj.mp hu, String.toList_inj.mp hn]

/-- No provider has a hyphen, so a unit name gives its label away. -/
theorem rcIds_nodup_iff :
    ((rcRows vars).map fun row ↦ idOf (rcOf row)).Nodup ↔ ((rcRows vars).map rcLabel).Nodup := by
  constructor
  · intro hids
    refine nodup_map_of hids ?_
    intro r _ t _ heq
    rw [idOf_rcOf, idOf_rcOf, rcUnitOf, rcUnitOf, heq]
  · intro hlabels
    refine nodup_map_of hlabels ?_
    intro r hr t ht heq
    have hhyphen : ∀ row ∈ rcRows vars, '-' ∉ (rcLabel row).1.toList := by
      intro row hrow
      obtain ⟨agent, _, _, hagent, _, _, hprovider, _⟩ := h.rc row hrow
      rw [rcLabel, hagent, textOf]
      have hall : ∀ a ∈ PROVIDERS, '-' ∉ a.toList := by decide +kernel
      exact hall agent hprovider
    rw [idOf_rcOf, idOf_rcOf] at heq
    have hunits := congrArg String.toList ((String.append_right_inj _).mp heq)
    simp only [rcUnitOf, String.toList_append, List.append_assoc,
      List.append_cancel_left_eq] at hunits
    obtain ⟨hagent, hrest⟩ := (append_sep_inj (hhyphen r hr) (hhyphen t ht)).mp hunits
    exact Prod.ext (String.toList_inj.mp hagent)
      (String.toList_inj.mp (List.append_cancel_right hrest))

/-- The ports run out after the 56459th instance. -/
theorem memoryPorts_iff :
    (∀ row ∈ memoryInstances vars, isPort (.num row.port) = true) ↔
      (memoryInstances vars).length ≤ 56459 := by
  simp only [memoryInstances, h.basePort, numberOr, List.length_map, List.length_zipIdx]
  generalize (listOf (vars.get "devbox_developers")).flatMap instancesOf = rows
  have hport : ∀ i : ℕ, isPort (.num (memoryBasePort.add (.ofInt i))) = true ↔ i ≤ 56458 := by
    intro i
    rw [isPort_iff, memoryBasePort, Number.add_ofInt]
    constructor
    · rintro ⟨n, hn, _, hmax⟩
      have hsum := Number.ofInt_inj.mp (Val.num.inj hn)
      omega
    · intro hi
      exact ⟨_, rfl, by omega, by omega⟩
  constructor
  · intro hall
    by_contra hlong
    have hlast : 56459 < rows.length := by omega
    have hmem : (rows[56459], 56459) ∈ rows.zipIdx :=
      List.mem_zipIdx_iff_getElem?.mpr (List.getElem?_eq_getElem hlast)
    have hvalid := (hport 56459).mp (hall _ (List.mem_map.mpr ⟨_, hmem, rfl⟩))
    omega
  · intro hshort row hrow
    obtain ⟨p, hp, rfl⟩ := List.mem_map.mp hrow
    obtain ⟨hlt, _⟩ := List.getElem?_eq_some_iff.mp (List.mem_zipIdx_iff_getElem?.mp hp)
    exact (hport p.2).mpr (by omega)

theorem ids_nodup_iff (tailnet : Ipv4) :
    ((desktopComponents tailnet vars ++ failoverComponents vars ++ (mcpServers vars).map mcpOf ++
      (memoryInstances vars).map memoryOf ++ (rcRows vars).map rcOf).map idOf).Nodup ↔
        ((rcRows vars).map rcLabel).Nodup := by
  have hdesktop : (desktopComponents tailnet vars).map idOf = [] ∨
      (desktopComponents tailnet vars).map idOf = ["desktop.xrdp", "desktop.xrdp-sesman"] := by
    unfold desktopComponents
    simp only
    split
    · exact .inl rfl
    · exact .inr rfl
  have hfailover : (failoverComponents vars).map idOf = [] ∨
      (failoverComponents vars).map idOf = ["browser.proxy", "browser.fallback"] := by
    unfold failoverComponents
    simp only
    split
    · exact .inr rfl
    · exact .inl rfl
  have hmcp : ∀ id ∈ (mcpServers vars).map (fun server ↦ idOf (mcpOf server)),
      "browser.mcp.".toList <+: id.toList := by
    intro id hid
    obtain ⟨server, _, rfl⟩ := List.mem_map.mp hid
    exact prefix_append _ _
  have hmemory : ∀ id ∈ (memoryInstances vars).map (fun row ↦ idOf (memoryOf row)),
      "memory.".toList <+: id.toList := by
    intro id hid
    obtain ⟨row, _, rfl⟩ := List.mem_map.mp hid
    rw [idOf_memoryOf, String.append_assoc, String.append_assoc]
    exact prefix_append _ _
  have hrc : ∀ id ∈ (rcRows vars).map (fun row ↦ idOf (rcOf row)),
      "remote-control.".toList <+: id.toList := by
    intro id hid
    obtain ⟨row, _, rfl⟩ := List.mem_map.mp hid
    exact prefix_append _ _
  have hhead : ∀ id ∈ (desktopComponents tailnet vars).map idOf, "desktop.".toList <+: id.toList := by
    rcases hdesktop with heq | heq
    · rw [heq]
      exact fun _ hid ↦ absurd hid List.not_mem_nil
    · rw [heq]
      decide +kernel
  have hfail : ∀ id ∈ (failoverComponents vars).map idOf,
      "browser.".toList <+: id.toList ∧ ¬ "browser.mcp.".toList <+: id.toList := by
    rcases hfailover with heq | heq
    · rw [heq]
      exact fun _ hid ↦ absurd hid List.not_mem_nil
    · rw [heq]
      decide +kernel
  have hnodupDesktop : ((desktopComponents tailnet vars).map idOf).Nodup := by
    rcases hdesktop with heq | heq <;> rw [heq] <;> decide +kernel
  have hnodupFailover : ((failoverComponents vars).map idOf).Nodup := by
    rcases hfailover with heq | heq <;> rw [heq] <;> decide +kernel
  have hfailMcp : ((failoverComponents vars).map idOf).Disjoint
      ((mcpServers vars).map fun server ↦ idOf (mcpOf server)) :=
    fun id hid hid' ↦ (hfail id hid).2 (hmcp id hid')
  have hbrowser : ∀ id ∈ (failoverComponents vars).map idOf, "browser.".toList <+: id.toList :=
    fun id hid ↦ (hfail id hid).1
  simp only [List.map_append, List.map_map, Function.comp_def, List.nodup_append',
    List.disjoint_append_left]
  constructor
  · rintro ⟨_, hids, _⟩
    exact (rcIds_nodup_iff h).mp hids
  · intro hlabels
    refine ⟨⟨⟨⟨hnodupDesktop, hnodupFailover, ?_⟩, mcpIds_nodup h, ?_, hfailMcp⟩,
      memoryIds_nodup h, ⟨?_, ?_⟩, ?_⟩, (rcIds_nodup_iff h).mpr hlabels, ⟨⟨?_, ?_⟩, ?_⟩, ?_⟩
    · exact disjoint_of_heads hhead hbrowser (by decide) (by decide)
    · exact disjoint_of_heads hhead hmcp (by decide) (by decide)
    · exact disjoint_of_heads hhead hmemory (by decide) (by decide)
    · exact disjoint_of_heads hbrowser hmemory (by decide) (by decide)
    · exact disjoint_of_heads hmcp hmemory (by decide) (by decide)
    · exact disjoint_of_heads hhead hrc (by decide) (by decide)
    · exact disjoint_of_heads hbrowser hrc (by decide) (by decide)
    · exact disjoint_of_heads hmcp hrc (by decide) (by decide)
    · exact disjoint_of_heads hmemory hrc (by decide) (by decide)

theorem factsAccepted_iff (tailnet : Ipv4) : FactsAccepted tailnet vars ↔ FactNames vars := by
  have hparse := parseHealthFacts_returns (f := [("schemaVersion", 1),
    ("components", .arr (desktopComponents tailnet vars ++ failoverComponents vars ++
      (mcpServers vars).map mcpOf ++ (memoryInstances vars).map memoryOf ++
      (rcRows vars).map rcOf))]) rfl rfl
  rw [ids_nodup_iff h] at hparse
  simp only [List.forall_mem_append, List.forall_mem_map] at hparse
  constructor
  · rintro ⟨facts, hfacts, hreturns⟩
    rw [healthComponents_eq h] at hfacts
    obtain rfl := Except.ok.inj hfacts
    obtain ⟨⟨⟨⟨_, hmcp⟩, hmemory⟩, hrc⟩, hunits⟩ := hparse.mp hreturns
    have hmemory' : ∀ row ∈ memoryInstances vars, (textOf row.user).length ≤ 32 ∧
        (∀ c ∈ row.name.toList, idTail c = true) ∧ isPort (.num row.port) = true :=
      fun row hrow ↦ (memory_wellFormed_iff h hrow).mp (hmemory row hrow)
    exact
      { servers := fun server hserver ↦ (mcp_wellFormed_iff h hserver).mp (hmcp server hserver)
        owners := fun row hrow ↦ (hmemory' row hrow).1
        instances := fun row hrow ↦ (hmemory' row hrow).2.1
        count := (memoryPorts_iff h).mp fun row hrow ↦ (hmemory' row hrow).2.2
        users := fun row hrow ↦ ((rc_wellFormed_iff h hrow).mp (hrc row hrow)).1
        projects := fun row hrow ↦ ((rc_wellFormed_iff h hrow).mp (hrc row hrow)).2
        units := hunits }
  · intro hnames
    have hports := (memoryPorts_iff h).mpr hnames.count
    refine ⟨_, healthComponents_eq h tailnet, hparse.mpr ⟨⟨⟨⟨⟨desktop_wellFormed,
      failover_wellFormed h⟩, ?_⟩, ?_⟩, ?_⟩, hnames.units⟩⟩
    · exact fun server hserver ↦ (mcp_wellFormed_iff h hserver).mpr (hnames.servers server hserver)
    · intro row hrow
      exact (memory_wellFormed_iff h hrow).mpr
        ⟨hnames.owners row hrow, hnames.instances row hrow, hports row hrow⟩
    · intro row hrow
      exact (rc_wellFormed_iff h hrow).mpr ⟨hnames.users row hrow, hnames.projects row hrow⟩

end Rows

/-! ## The rows of an accepted configuration -/

section Accepted

variable {env : ClientEnv} {client : ClientFacts}
  {doc resolved vars tailscale hostVars rcUnits : Val} {devs developers vdevs : List Val}

theorem accepted_projectName (h : Accepted env doc resolved devs) {dev project : Val}
    (hdev : dev ∈ devs) (hproject : project ∈ projectsOf dev) :
    ∃ name, project.get "name" = .str name ∧ Text.test PROJECT_NAME_RE name = true := by
  obtain ⟨base, hpasses⟩ := h.developers.each dev hdev
  rcases projectsPass hpasses.projects with hundef | ⟨ps, harr, hps⟩
  · rw [projectsOf, hundef] at hproject
    cases hproject
  · rw [projectsOf, harr] at hproject
    obtain ⟨path, hpath⟩ := hps project hproject
    have hname := hpath.name
    cases hv : project.get "name" with
    | str name =>
        rw [hv] at hname
        exact ⟨name, rfl, hname⟩
    | _ =>
        rw [hv] at hname
        cases hname

theorem mcpServers_users (h : Accepted env doc resolved devs)
    (gen : Generated client resolved vars tailscale hostVars rcUnits developers vdevs) :
    (mcpServers vars).map (fun server ↦ server.get "user") = [] ∨
      (mcpServers vars).map (fun server ↦ server.get "user") = browserUsers devs := by
  have hservers : (normalizeBrowser resolved developers).get "servers" =
      .arr ((assignMcpPorts (browserUsers developers) (mcpBasePort resolved)).map mcpServerRow) :=
    rfl
  unfold mcpServers
  rw [gen.browser]
  split
  · right
    rw [hservers, browserUsers_match h gen, listOf, List.map_map, assignMcpPorts, List.map_map]
    exact List.zipIdx_map_fst 0 _
  · exact .inl rfl

theorem browserUsers_sublist (devs : List Val) :
    (browserUsers devs).Sublist (devs.map fun dev ↦ dev.get "user") :=
  List.filter_sublist.map _

theorem generated_users (h : Accepted env doc resolved devs)
    (gen : Generated client resolved vars tailscale hostVars rcUnits developers vdevs) :
    (listOf (vars.get "devbox_developers")).map (fun vdev ↦ vdev.get "user") =
      devs.map fun dev ↦ dev.get "user" := by
  symm
  refine map_eq_of_forall₂ (developers_match h gen) ?_
  rintro dev vdev ⟨rdev, ⟨_, hresolved⟩, hgenerated⟩
  rw [hgenerated.user, hresolved.fields "user" (by decide)]

theorem memoryInstances_names (vars : Val) :
    (memoryInstances vars).map (fun row ↦ (row.user, row.name)) =
      (listOf (vars.get "devbox_developers")).flatMap instancesOf := by
  simp only [memoryInstances, List.map_map, Function.comp_def]
  exact List.zipIdx_map_fst 0 _

theorem mem_instancesOf {dev : Val} {p : Val × String} (h : p ∈ instancesOf dev) :
    p.1 = dev.get "user" := by
  unfold instancesOf at h
  split at h
  · obtain ⟨_, _, rfl⟩ := List.mem_map.mp h
    rfl
  · cases h

theorem memoryNames_nodup (h : Accepted env doc resolved devs)
    (gen : Generated client resolved vars tailscale hostVars rcUnits developers vdevs) :
    ((memoryInstances vars).map fun row ↦ (row.user, row.name)).Nodup := by
  rw [memoryInstances_names, List.nodup_flatMap]
  refine ⟨?_, ?_⟩
  · intro vdev hvdev
    obtain ⟨dev, _, rdev, _, hgenerated⟩ := forall₂_exists_left (developers_match h gen) hvdev
    unfold instancesOf
    split
    · refine nodup_map_of (normalizeMemory_instances hgenerated.memory) ?_
      intro p _ q _ heq
      exact (Prod.mk.inj heq).2
    · exact List.nodup_nil
  · have husers := accepted_users_nodup h
    rw [← generated_users h gen, List.Nodup, List.pairwise_map] at husers
    refine husers.imp ?_
    intro a b hne p hpa hpb
    exact hne ((mem_instancesOf hpa).symm.trans (mem_instancesOf hpb))

theorem accepted_provider {base : String} {dev : Val} (h : (validateAgentProfiles dev base).Passes)
    {key : String} (hkey : key ∈ keysOf (dev.get "agent_profiles")) :
    ∃ provider, ((dev.get "agent_profiles").ownFields.lookup key).get "provider" = .str provider ∧
      provider ∈ PROVIDERS := by
  obtain ⟨hsection, _⟩ := Check.passes_append.mp h
  rcases Check.passes_section?.mp hsection with hundef | ⟨fs, hobj, hall⟩
  · rw [hundef] at hkey
    cases hkey
  · rw [hobj] at hkey ⊢
    have hprofile := Check.passes_each.mp hall _ (Fields.lookup_mem hkey)
    simp only [validateAgentProfile, Check.passes_append] at hprofile
    obtain ⟨_, hbody⟩ := hprofile
    split at hbody
    · simp only [Check.passes_append, Check.passes_when, Check.not_passes_fail, imp_false,
        Bool.not_eq_true', Bool.not_eq_false] at hbody
      exact str_of_isOneOf hbody.1.1
    · exact (Check.not_passes_fail _ _ hbody).elim

theorem resolveProject_name {spec dev project : Val} {path : String} {r : Resolution}
    (h : resolveProject spec dev project path = .ok r) :
    r.value.get "name" = project.get "name" := by
  simp only [resolveProject, bind_eq_ok, pure_eq_ok, Except.ok.injEq] at h
  obtain ⟨name, hname, unit, _, rfl⟩ := h
  exact (read_eq_ok hname).symm

/-- The unit of a project names its provider, its account and itself. -/
theorem rcRow_names (h : Accepted env doc resolved devs)
    (gen : Generated client resolved vars tailscale hostVars rcUnits developers vdevs) {row : Val}
    (hrow : row ∈ rcRows vars) :
    ∃ agent user project, row.get "agent" = .str agent ∧ row.get "user" = .str user ∧
      row.get "project" = .str project ∧ agent ∈ PROVIDERS ∧
      Text.test USERNAME_RE user = true ∧ Text.test PROJECT_NAME_RE project = true := by
  rw [rcRows, gen.rcUnits] at hrow
  obtain ⟨rdev, hrdev, rp, hrp, hunit⟩ := rcUnits_inv gen.rcUnits_eq hrow
  obtain ⟨htruthy, huserEq, hprojectEq, hagentEq⟩ := rcUnitRow_inv hunit
  rw [← listOf_of_elems gen.developers_eq] at hrdev
  obtain ⟨dev, hdev, _, hresolved⟩ := forall₂_exists_left h.developers_match hrdev
  obtain ⟨project, hproject, _, r, path, hr, rfl⟩ :=
    forall₂_exists_left hresolved.projects_match hrp
  obtain ⟨user, huser, huserRe⟩ := accepted_user h hdev
  obtain ⟨base, hpasses⟩ := h.developers.each dev hdev
  have hchecked := checked_of_accepted h hdev hproject
  obtain ⟨_, _, _, _, hrc⟩ := resolveProject_inv hr
  have hclosed := unit_closed (agent_closed hchecked.devRefs hchecked.projectRefs _) huser hrc
  rcases hclosed with hnull | ⟨_, key, _, hkey, _, _, hprovider, _⟩
  · rw [hnull] at htruthy
    cases htruthy
  · obtain ⟨provider, hlookup, hmem⟩ := accepted_provider hpasses.profiles hkey
    obtain ⟨name, hname, hnameRe⟩ := accepted_projectName h hdev hproject
    refine ⟨provider, user, name, ?_, ?_, ?_, hmem, huserRe, hnameRe⟩
    · rw [hagentEq, hprovider, hlookup]
    · rw [huserEq, hresolved.fields "user" (by decide), huser]
    · rw [hprojectEq, resolveProject_name hr, hname]

theorem failover_ports (h : Accepted env doc resolved devs)
    (gen : Generated client resolved vars tailscale hostVars rcUnits developers vdevs) :
    isPort (((vars.get "devbox_browser").get "failover").get "cdp_port") = true ∧
      isPort (((vars.get "devbox_browser").get "failover").get "fallback_chrome_port") = true := by
  have hports := browserPorts h.structured.browser
  have hfailover : (vars.get "devbox_browser").get "failover" =
      normalizeFailover ((doc.get "browser").get "failover") := by
    rw [gen.browser, ← h.fields "browser" (by decide)]
    rfl
  have hport : ∀ (v : Val) (d : ℤ), v = .undef ∨ isPort v = true → 1 ≤ d → d ≤ 65535 →
      isPort (v.orElse (.num (.ofInt d))) = true := by
    intro v d hv hlo hhi
    rcases hv with rfl | hv
    · exact isPort_iff.mpr ⟨d, rfl, hlo, hhi⟩
    · obtain ⟨n, rfl, hrange⟩ := isPort_iff.mp hv
      exact hv
  rw [hfailover]
  exact ⟨hport _ 9222 (hports.failover _ (by simp)) (by omega) (by omega),
    hport _ 9422 (hports.failover _ (by simp)) (by omega) (by omega)⟩

theorem factRows (h : Accepted env doc resolved devs)
    (gen : Generated client resolved vars tailscale hostVars rcUnits developers vdevs) :
    FactRows vars where
  basePort := gen.basePort
  failover := fun _ ↦ failover_ports h gen
  servers := by
    intro server hserver
    have hmem : server.get "user" ∈ (mcpServers vars).map fun server ↦ server.get "user" :=
      List.mem_map.mpr ⟨server, hserver, rfl⟩
    rcases mcpServers_users h gen with hnone | husers
    · rw [hnone] at hmem
      cases hmem
    · rw [husers] at hmem
      obtain ⟨dev, hdev, heq⟩ := List.mem_map.mp ((browserUsers_sublist devs).subset hmem)
      rw [← heq]
      exact accepted_user h hdev
  serversNodup := by
    rcases mcpServers_users h gen with hnone | husers
    · rw [hnone]
      exact List.nodup_nil
    · rw [husers]
      exact (accepted_users_nodup h).sublist (browserUsers_sublist devs)
  memory := by
    intro row hrow
    have hmem : (row.user, row.name) ∈ (memoryInstances vars).map fun row ↦ (row.user, row.name) :=
      List.mem_map.mpr ⟨row, hrow, rfl⟩
    rw [memoryInstances_names] at hmem
    obtain ⟨vdev, hvdev, hp⟩ := List.mem_flatMap.mp hmem
    have huser : vdev.get "user" ∈ (listOf (vars.get "devbox_developers")).map fun vdev ↦
        vdev.get "user" := List.mem_map.mpr ⟨vdev, hvdev, rfl⟩
    rw [generated_users h gen] at huser
    obtain ⟨dev, hdev, heq⟩ := List.mem_map.mp huser
    have hrowUser : row.user = dev.get "user" := (mem_instancesOf hp).trans heq.symm
    rw [hrowUser]
    exact accepted_user h hdev
  memoryNodup := memoryNames_nodup h gen
  rc := fun row hrow ↦ rcRow_names h gen hrow

end Accepted

/-- The health facts of an accepted configuration are accepted exactly when
the names fit. -/
theorem health_facts_accepted_iff {env : ClientEnv} {client : ClientFacts} {doc : Doc}
    {resolved vars : Val} (h : Accepts env doc resolved)
    (hvars : normalize client resolved = .ok vars) (tailnet : Ipv4) :
    FactsAccepted tailnet vars ↔ FactNames vars := by
  obtain ⟨devs, haccepted⟩ := accepted h
  obtain ⟨_, _, _, _, _, gen⟩ := generated_of_normalize hvars
  exact factsAccepted_iff (factRows haccepted gen) tailnet

/-- One project with a Remote Control unit, which is on unless it is turned off. -/
def rcProject (name : String) : Val :=
  specWith []
    [("agent_profiles", .obj [("main", .obj [("provider", "claude")])]),
     ("projects", .arr [.obj [("name", .str name), ("repo", "git@host:app.git")]])]

def capitalProject : Doc := ⟨rcProject "Web", by decide +kernel⟩

def plainProject : Doc := ⟨rcProject "web", by decide +kernel⟩

def someTailnet : Ipv4 := ⟨100, 64, 0, 10⟩

def factsRead (tailnet : Ipv4) (vars : Val) : Bool :=
  match healthComponents tailnet vars with
  | .ok facts => (parseHealthFacts facts).isOk
  | .error _ => false

theorem factsRead_of_accepted {tailnet : Ipv4} {vars : Val} (h : FactsAccepted tailnet vars) :
    factsRead tailnet vars = true := by
  obtain ⟨facts, hfacts, read, hread⟩ := h
  simp [factsRead, hfacts, hread, Except.isOk, Except.toBool]

/-- A capital in a project's name, and the doctor reads nothing at all. -/
theorem capitalProject_refused :
    ∃ resolved vars, Accepts homeEnv capitalProject resolved ∧
      normalize noClient resolved = .ok vars ∧ ¬ FactsAccepted someTailnet vars := by
  have hread : ((varsOf homeEnv noClient capitalProject.val).map fun vars ↦
      factsRead someTailnet vars) = some false := by decide +kernel
  obtain ⟨vars, hvars, hfalse⟩ := Option.map_eq_some_iff.mp hread
  obtain ⟨resolved, haccepts, hnormalize⟩ := vars_eq_some hvars
  refine ⟨resolved, vars, haccepts, hnormalize, ?_⟩
  intro haccepted
  rw [factsRead_of_accepted haccepted] at hfalse
  cases hfalse

theorem plainProject_facts :
    ∃ resolved vars, Accepts homeEnv plainProject resolved ∧
      normalize noClient resolved = .ok vars ∧ (FactsAccepted someTailnet vars ↔ FactNames vars) := by
  obtain ⟨resolved, vars, haccepts, hvars⟩ := exists_vars homeEnv noClient plainProject
    (by decide +kernel)
  exact ⟨resolved, vars, haccepts, hvars, health_facts_accepted_iff haccepts hvars someTailnet⟩

end RemoteDevbox.Ansible
