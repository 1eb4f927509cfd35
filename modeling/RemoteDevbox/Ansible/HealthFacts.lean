import RemoteDevbox.Ansible.Ports
import RemoteDevbox.Box.Facts

namespace RemoteDevbox.Ansible

open Js Client Spec Box

/-!
# The health facts of a box

The template lists the components a box should run, under names put together
from the accounts, memory instances and projects of the configuration. The
doctor reads the list back under patterns of its own.
-/

/-- The text of a scalar that `~` joins. -/
def text : Val → Js String
  | .str s => .ok s
  | .null => .ok "None"
  | .bool b => .ok (if b then "True" else "False")
  | .num n => .ok n.toStr
  | _ => .error .typeError

/-- The address of the tailnet interface, a fact of the host. -/
structure Ipv4 where
  a : Fin 256
  b : Fin 256
  c : Fin 256
  d : Fin 256

def Ipv4.text (address : Ipv4) : String :=
  toString address.a.val ++ "." ++ toString address.b.val ++ "." ++ toString address.c.val ++ "." ++
    toString address.d.val

def tcpListener (address : String) (port : Val) (process : String) : Fields :=
  [("protocol", "tcp"), ("address", .str address), ("port", port), ("process", .str process)]

def desktopComponents (tailnet : Ipv4) (vars : Val) : List Val :=
  let users := (listOf (vars.get "devbox_developers")).filter fun dev ↦
    truth ((dev.get "desktop").get "enabled")
  let access := users.flatMap fun dev ↦ listOf ((dev.get "desktop").get "access")
  let listener (door address : String) : List Val :=
    if access.any (·.isStrLit door) then [.obj (tcpListener address 3389 "xrdp")] else []
  if users.isEmpty then []
  else
    [.obj
      [("id", "desktop.xrdp"),
       ("unit", "xrdp.service"),
       ("listeners", .arr (listener "tunnel" "127.0.0.1" ++ listener "tailnet" tailnet.text ++
         listener "unsafe-public" "0.0.0.0")),
       ("recovery", "automatic")],
     .obj
      [("id", "desktop.xrdp-sesman"),
       ("unit", "xrdp-sesman.service"),
       ("listeners", .arr [.obj [("protocol", "unix"), ("path", "sesman.socket"),
         ("process", "xrdp-sesman")]]),
       ("recovery", "confirmation-required")]]

def failoverComponent (id unit : String) (port : Val) (process : String) : Val :=
  .obj
    [("id", .str id),
     ("unit", .str unit),
     ("listeners", .arr [.obj (tcpListener "127.0.0.1" port process)]),
     ("recovery", "automatic")]

def failoverComponents (vars : Val) : List Val :=
  let failover := (vars.get "devbox_browser").get "failover"
  if truth (failover.get "enabled") then
    [failoverComponent "browser.proxy" "haproxy.service" (failover.get "cdp_port") "haproxy",
     failoverComponent "browser.fallback" "devbox-fallback-chrome.service"
       (failover.get "fallback_chrome_port") "chrome"]
  else []

def mcpComponent (server : Val) : Js Val := do
  let user ← text (server.get "user")
  return .obj
    [("id", .str ("browser.mcp." ++ user)),
     ("profile", server.get "user"),
     ("unit", .str ("devbox-playwright-mcp-" ++ user ++ ".service")),
     ("recovery", "automatic")]

def mcpServers (vars : Val) : List Val :=
  if truth ((vars.get "devbox_browser").get "enabled") then
    listOf ((vars.get "devbox_browser").get "servers")
  else []

def memoryComponent (row : MemoryRow) : Js Val := do
  let user ← text row.user
  return .obj
    [("id", .str ("memory." ++ user ++ "." ++ row.name)),
     ("profile", row.user),
     ("unit", .str ("hindsight-" ++ row.name ++ ".service")),
     ("unitScope", "user"),
     ("listeners", .arr [.obj (tcpListener "127.0.0.1" (.num row.port) "hindsight" ++
       ([("processMatch", "prefix")] : Fields))]),
     ("recovery", "manual")]

def rcUnitName (row : Val) : Js String := do
  let agent ← text (row.get "agent")
  let user ← text (row.get "user")
  let project ← text (row.get "project")
  return "agent-rc-" ++ agent ++ "-" ++ user ++ "-" ++ project ++ ".service"

def rcComponent (row : Val) : Js Val := do
  let unit ← rcUnitName row
  return .obj
    [("id", .str ("remote-control." ++ unit)),
     ("profile", row.get "user"),
     ("unit", .str unit),
     ("recovery", "automatic")]

def rcRows (vars : Val) : List Val := listOf (vars.get "devbox_rc_units")

def healthComponents (tailnet : Ipv4) (vars : Val) : Js Val := do
  let mcp ← (mcpServers vars).mapM mcpComponent
  let memory ← (memoryInstances vars).mapM memoryComponent
  let rc ← (rcRows vars).mapM rcComponent
  return .obj
    [("schemaVersion", 1),
     ("components", .arr (desktopComponents tailnet vars ++ failoverComponents vars ++ mcp ++
       memory ++ rc))]

/-- The template renders, and the doctor reads what it rendered. -/
def FactsAccepted (tailnet : Ipv4) (vars : Val) : Prop :=
  ∃ facts, healthComponents tailnet vars = .ok facts ∧ Returns (parseHealthFacts facts)

/-! ## Names under the patterns of the doctor -/

section Names

open Regex

theorem test_append_id {head : String} (hhead : Text.test COMPONENT_ID_RE head = true)
    (rest : String) :
    Text.test COMPONENT_ID_RE (head ++ rest) = true ↔ ∀ c ∈ rest.toList, idTail c = true := by
  obtain ⟨c, v, hlist, hc, hv⟩ := isMatch_head_tail.mp hhead
  simp only [Text.test, COMPONENT_ID_RE, isMatch_head_tail, String.toList_append, hlist,
    List.cons_append, List.cons.injEq]
  constructor
  · rintro ⟨d, w, ⟨rfl, rfl⟩, _, hw⟩ x hx
    exact hw x (List.mem_append_right _ hx)
  · intro hrest
    refine ⟨c, v ++ rest.toList, ⟨rfl, rfl⟩, hc, ?_⟩
    intro x hx
    exact (List.mem_append.mp hx).elim (hv x) (hrest x)

theorem test_unit {name : String} (hne : name ≠ "")
    (hname : ∀ c ∈ name.toList, unitChar c = true) :
    Text.test UNIT_RE (name ++ ".service") = true := by
  refine isMatch_seq.mpr ⟨name.toList, ".service".toList, by simp, ?_, isMatch_lit.mpr rfl⟩
  exact isMatch_plus_cls.mpr ⟨by simpa using hne, hname⟩

theorem nameTail_of_userName {user : String} (h : Text.test USERNAME_RE user = true) :
    ∀ c ∈ user.toList, nameTail c = true := by
  obtain ⟨c, v, hlist, hc, hv⟩ := isMatch_head_tail.mp h
  intro d hd
  rw [hlist] at hd
  rcases List.mem_cons.mp hd with rfl | hd
  · simp only [nameHead, Bool.or_eq_true] at hc
    simp only [nameTail, Bool.or_eq_true]
    tauto
  · exact hv d hd

theorem idTail_of_nameTail {c : Char} (h : nameTail c = true) : idTail c = true := by
  simp only [nameTail, idTail, Bool.or_eq_true] at h ⊢
  tauto

theorem unitChar_of_wordChar {c : Char} (h : wordChar c = true) : unitChar c = true := by
  simp only [wordChar, unitChar, Bool.or_eq_true] at h ⊢
  tauto

theorem wordChar_of_idTail {c : Char} (h : idTail c = true) : wordChar c = true := by
  simp only [idTail, wordChar, isAlnum, Bool.or_eq_true] at h ⊢
  tauto

/-- Of the characters of a project name, the doctor refuses the capitals. -/
theorem idTail_iff_of_wordChar {c : Char} (h : wordChar c = true) :
    idTail c = true ↔ isUpper c = false := by
  have hsplit : ∀ d : Char, d.toNat < 128 → wordChar d = true →
      (idTail d = true ↔ isUpper d = false) := fun d hd ↦ by
    revert d
    intro d hd
    exact ascii_forall (P := fun d ↦ wordChar d = true → (idTail d = true ↔ isUpper d = false))
      (by decide +kernel) hd
  refine hsplit c ?_ h
  simp only [wordChar, Bool.or_eq_true, beq_iff_eq] at h
  rcases h with ((h | rfl) | rfl) | rfl
  · exact isAlnum_lt h
  · decide
  · decide
  · decide

/-- An account name that is too long for the doctor's pattern. -/
theorem test_profile {user : String} (h : Text.test USERNAME_RE user = true) :
    Text.test PROFILE_RE user = true ↔ user.length ≤ 32 := by
  obtain ⟨c, v, hlist, hc, hv⟩ := isMatch_head_tail.mp h
  have hlength : user.length = v.length + 1 := by
    rw [← String.length_toList, hlist, List.length_cons]
  simp only [Text.test, PROFILE_RE, isMatch_seq, isMatch_cls, isMatch_upTo_cls, hlist]
  constructor
  · rintro ⟨_, w, heq, ⟨d, _, rfl⟩, hw, _⟩
    obtain ⟨_, rfl⟩ : d = c ∧ w = v := by simpa using heq
    omega
  · intro hshort
    exact ⟨[c], v, rfl, ⟨c, hc, rfl⟩, by omega, hv⟩

end Names

/-! ## Each kind of component -/

theorem wellFormed_obj {fields : Fields} {id : String} (hid : (Val.obj fields).get "id" = .str id) :
    WellFormed (.obj fields) ↔
      Text.test COMPONENT_ID_RE id = true ∧ Returns (parseBody id (.obj fields)) := by
  constructor
  · rintro ⟨_, found, hfound, htest, hbody⟩
    obtain rfl := Val.str.inj (hid.symm.trans hfound)
    exact ⟨htest, hbody⟩
  · rintro ⟨htest, hbody⟩
    exact ⟨rfl, id, hid, htest, hbody⟩

theorem parsePort_returns {v : Val} (message : String) :
    Returns (parsePort v message) ↔ isPort v = true := by
  cases v with
  | num n =>
      by_cases h : isPort (.num n) = true
      · simp [parsePort, h]
      · simp [parsePort, h, Box.fail]
  | _ => simp [parsePort, Box.fail, isPort, isIntegerIn]

theorem tcpListener_returns (address process : String) (port : Val) {extra : Fields}
    (haddress : Text.test ADDRESS_RE address = true)
    (hprocess : Text.test PROCESS_RE process = true)
    (hextra : extra = [] ∨ extra = [("processMatch", .str "prefix")]) :
    Returns (parseListener (.obj (tcpListener address port process ++ extra))) ↔
      isPort port = true := by
  rw [← parsePort_returns "invalid TCP listener"]
  have hmatch : ∃ m, ifStated ((Val.obj (tcpListener address port process ++ extra)).get
      "processMatch") parseProcessMatch = .ok m := by
    rcases hextra with rfl | rfl
    · exact ⟨none, rfl⟩
    · exact ⟨some .leading, rfl⟩
  obtain ⟨m, hm⟩ := hmatch
  have hprotocol : (Val.obj (tcpListener address port process ++ extra)).get "protocol" = "tcp" :=
    rfl
  have haddr : (Val.obj (tcpListener address port process ++ extra)).get "address" =
      .str address := rfl
  have hport : (Val.obj (tcpListener address port process ++ extra)).get "port" = port := rfl
  have hproc : (Val.obj (tcpListener address port process ++ extra)).get "process" =
      .str process := rfl
  have htcp : (Val.str "tcp").isStrLit "tcp" = true := rfl
  simp only [parseListener, record, Val.isRecord, if_true, ok_bind, hm, hprotocol, haddr, hport, hproc, htcp, parseText, haddress, hprocess, returns_bind, pure_eq_ok,
    returns_ok, and_true]
  exact Iff.rfl

theorem recovery_returns (id : String) {policy : String}
    (h : policy ∈ ["automatic", "manual", "confirmation-required"]) :
    Returns (parseRecovery id (.str policy)) := by
  simp only [List.mem_cons, List.not_mem_nil, or_false] at h
  rcases h with rfl | rfl | rfl
  · exact ⟨.automatic, rfl⟩
  · exact ⟨.manual, rfl⟩
  · exact ⟨.confirmationRequired, rfl⟩

theorem stated_str {re : Regex} {s : String} : Stated re (.str s) ↔ Text.test re s = true := by
  simp [Stated]

/-- A component that is known by its unit only. -/
theorem unitComponent_wellFormed {id unit user : String} :
    WellFormed (.obj [("id", .str id), ("profile", .str user), ("unit", .str unit),
        ("recovery", "automatic")]) ↔
      Text.test COMPONENT_ID_RE id = true ∧ Text.test PROFILE_RE user = true ∧
        Text.test UNIT_RE unit = true := by
  rw [wellFormed_obj rfl, parseBody_returns]
  have hrecovery := recovery_returns id (List.mem_cons_self : "automatic" ∈ _)
  have hscope : (Val.obj [("id", .str id), ("profile", .str user), ("unit", .str unit),
    ("recovery", .str "automatic")]).get "unitScope" = .undef := rfl
  have hlisteners : ListenersOk ((Val.obj [("id", .str id), ("profile", .str user),
    ("unit", .str unit), ("recovery", .str "automatic")]).get "listeners") := .inl rfl
  refine and_congr_right fun _ ↦ ⟨?_, ?_⟩
  · rintro ⟨hprofile, _, hunit, _⟩
    exact ⟨stated_str.mp hprofile, stated_str.mp hunit⟩
  · rintro ⟨hprofile, hunit⟩
    exact ⟨stated_str.mpr hprofile, hrecovery, stated_str.mpr hunit, .inl hscope, hlisteners⟩

/-- A component without a profile, with its listeners. -/
theorem hostComponent_wellFormed {id unit policy : String} {listeners : List Val}
    (hid : Text.test COMPONENT_ID_RE id = true) (hunit : Text.test UNIT_RE unit = true)
    (hpolicy : policy ∈ ["automatic", "manual", "confirmation-required"])
    (hlisteners : ∀ l ∈ listeners, Returns (parseListener l)) :
    WellFormed (.obj [("id", .str id), ("unit", .str unit), ("listeners", .arr listeners),
      ("recovery", .str policy)]) := by
  refine (wellFormed_obj rfl).mpr ⟨hid, parseBody_returns.mpr ⟨.inl rfl, recovery_returns _ hpolicy,
    stated_str.mpr hunit, .inl rfl, .inr ⟨listeners, rfl, hlisteners⟩⟩⟩

theorem Ipv4.test_text (address : Ipv4) : Text.test ADDRESS_RE address.text = true := by
  have hdigits : ∀ n : Fin 256, (toString n.val).toList.all Regex.isDigit = true := by
    decide +kernel
  have hadmitted : ∀ c, Regex.isDigit c = true ∨ c = '.' → (Regex.isDigit c ||
      ('a' ≤ c && c ≤ 'f') || ('A' ≤ c && c ≤ 'F') || c == ':' || c == '.') = true := by
    rintro c (h | rfl)
    · simp [h]
    · decide
  refine Regex.isMatch_plus_cls.mpr ⟨?_, ?_⟩
  · simp [Ipv4.text]
  · intro c hc
    apply hadmitted
    simp only [Ipv4.text, String.toList_append, List.mem_append] at hc
    have hdot : ∀ d ∈ ".".toList, d = '.' := by simp
    rcases hc with ((((((hc | hc) | hc) | hc) | hc) | hc) | hc)
    · exact .inl (List.all_eq_true.mp (hdigits _) c hc)
    · exact .inr (hdot c hc)
    · exact .inl (List.all_eq_true.mp (hdigits _) c hc)
    · exact .inr (hdot c hc)
    · exact .inl (List.all_eq_true.mp (hdigits _) c hc)
    · exact .inr (hdot c hc)
    · exact .inl (List.all_eq_true.mp (hdigits _) c hc)

theorem desktop_wellFormed {tailnet : Ipv4} {vars : Val} :
    ∀ c ∈ desktopComponents tailnet vars, WellFormed c := by
  have hlisteners : ∀ (access : List Val) (door : String) (address : String),
      Text.test ADDRESS_RE address = true → ∀ l ∈ (if access.any (·.isStrLit door) then
        [Val.obj (tcpListener address 3389 "xrdp")] else []), Returns (parseListener l) := by
    intro access door address haddress l hl
    split at hl
    · rw [List.mem_singleton.mp hl, ← List.append_nil (tcpListener address 3389 "xrdp")]
      exact (tcpListener_returns _ _ _ haddress (by decide +kernel) (.inl rfl)).mpr (by decide +kernel)
    · cases hl
  intro c hc
  unfold desktopComponents at hc
  simp only at hc
  split at hc
  · cases hc
  · simp only [List.mem_cons, List.not_mem_nil, or_false] at hc
    rcases hc with rfl | rfl
    · refine hostComponent_wellFormed (by decide +kernel) (by decide +kernel) (by simp) ?_
      intro l hl
      rcases List.mem_append.mp hl with hl | hl
      · rcases List.mem_append.mp hl with hl | hl
        · exact hlisteners _ _ _ (by decide +kernel) l hl
        · exact hlisteners _ _ _ tailnet.test_text l hl
      · exact hlisteners _ _ _ (by decide +kernel) l hl
    · refine hostComponent_wellFormed (by decide +kernel) (by decide +kernel) (by simp) ?_
      intro l hl
      rw [List.mem_singleton.mp hl]
      exact ⟨.unix "sesman.socket" "xrdp-sesman" none, rfl⟩

/-- The names of the rows, as the accepted configurations have them. -/
structure FactRows (vars : Val) : Prop where
  basePort : vars.get "devbox_memory_base_port" = .num memoryBasePort
  failover : truth (((vars.get "devbox_browser").get "failover").get "enabled") = true →
    isPort (((vars.get "devbox_browser").get "failover").get "cdp_port") = true ∧
      isPort (((vars.get "devbox_browser").get "failover").get "fallback_chrome_port") = true
  servers : ∀ server ∈ mcpServers vars,
    ∃ user, server.get "user" = .str user ∧ Text.test USERNAME_RE user = true
  serversNodup : ((mcpServers vars).map fun server ↦ server.get "user").Nodup
  memory : ∀ row ∈ memoryInstances vars,
    ∃ user, row.user = .str user ∧ Text.test USERNAME_RE user = true
  memoryNodup : ((memoryInstances vars).map fun row ↦ (row.user, row.name)).Nodup
  rc : ∀ row ∈ rcRows vars, ∃ agent user project, row.get "agent" = .str agent ∧
    row.get "user" = .str user ∧ row.get "project" = .str project ∧ agent ∈ PROVIDERS ∧
    Text.test USERNAME_RE user = true ∧ Text.test PROJECT_NAME_RE project = true

theorem failover_wellFormed {vars : Val} (h : FactRows vars) :
    ∀ c ∈ failoverComponents vars, WellFormed c := by
  intro c hc
  unfold failoverComponents at hc
  simp only at hc
  split at hc
  · rename_i hon
    obtain ⟨hcdp, hfallback⟩ := h.failover hon
    have hlocal : ∀ (port : Val) (process : String), isPort port = true →
        Text.test PROCESS_RE process = true →
        ∀ l ∈ [Val.obj (tcpListener "127.0.0.1" port process)], Returns (parseListener l) := by
      intro port process hport hprocess l hl
      rw [List.mem_singleton.mp hl, ← List.append_nil (tcpListener "127.0.0.1" port process)]
      exact (tcpListener_returns _ _ _ (by decide +kernel) hprocess (.inl rfl)).mpr hport
    simp only [List.mem_cons, List.not_mem_nil, or_false] at hc
    rcases hc with rfl | rfl
    · exact hostComponent_wellFormed (by decide +kernel) (by decide +kernel) (by simp)
        (hlocal _ _ hcdp (by decide +kernel))
    · exact hostComponent_wellFormed (by decide +kernel) (by decide +kernel) (by simp)
        (hlocal _ _ hfallback (by decide +kernel))
  · cases hc

end RemoteDevbox.Ansible
