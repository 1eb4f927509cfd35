import RemoteDevbox.Box.Collect

namespace RemoteDevbox.Client.Document

open Js Box

/-!
# The health documents a client reads

The client carries its own copy of the reader. It returns what the box's own
reader returns, so a document that the box has collected reaches both of them
unchanged.
-/

def STATUSES : List HealthStatus := [.healthy, .degraded, .recovering, .blocked, .failed, .unknown]

def RECOVERY : List RecoveryPolicy := [.automatic, .manual, .confirmationRequired, .none]

def STATUS_PRIORITY : HealthStatus → ℕ
  | .healthy => 0
  | .recovering => 1
  | .degraded => 2
  | .unknown => 3
  | .blocked => 4
  | .failed => 5

/-- `^[a-z0-9][a-z0-9._-]*$` -/
def ID_RE : Regex :=
  .seq (.cls fun c ↦ Regex.isLower c || Regex.isDigit c)
    (.star (.cls fun c ↦ Regex.isLower c || Regex.isDigit c || c == '.' || c == '_' || c == '-'))

/-- `^[a-z_][a-z0-9_-]{0,31}$` -/
def PROFILE_RE : Regex :=
  .seq (.cls fun c ↦ Regex.isLower c || c == '_')
    (.upTo 31 (.cls fun c ↦ Regex.isLower c || Regex.isDigit c || c == '_' || c == '-'))

/-- `^[a-z0-9_]+$` -/
def REASON_RE : Regex :=
  .plus (.cls fun c ↦ Regex.isLower c || Regex.isDigit c || c == '_')

def object (value : Val) (label : String) : Js Val :=
  if value.isRecord then .ok value else fail s!"{label} must be an object"

def strings (value : Val) (label : String) : Js (List String) :=
  match value with
  | .arr xs =>
      match xs.mapM Box.Document.textOf with
      | some texts => .ok texts
      | none => fail s!"{label} must be a string list"
  | _ => fail s!"{label} must be a string list"

def parseComponent (value : Val) (index : ℕ) : Js HealthResult := do
  let raw ← object value s!"health component {index}"
  let id ← parseText ID_RE (raw.get "id") s!"invalid health component id at index {index}"
  let profile ← ifStated (raw.get "profile") fun v ↦
    parseText PROFILE_RE v s!"invalid profile for '{id}'"
  let status ← Box.Document.parseMember STATUSES HealthStatus.text (raw.get "status")
    s!"invalid status for '{id}'"
  let recovery ← Box.Document.parseMember RECOVERY RecoveryPolicy.text (raw.get "recovery")
    s!"invalid recovery for '{id}'"
  let reason ← ifStated (raw.get "reason") fun v ↦
    parseText REASON_RE v s!"invalid reason for '{id}'"
  let expected ← strings (raw.get "expected") s!"expected for '{id}'"
  let observed ← strings (raw.get "observed") s!"observed for '{id}'"
  return ⟨id, profile, status, expected, observed, reason, recovery⟩

def aggregateStatus (statuses : List HealthStatus) : HealthStatus :=
  statuses.foldl
    (fun worst status ↦ if STATUS_PRIORITY status > STATUS_PRIORITY worst then status else worst)
    .healthy

def createHealthDocument (localeCompare : String → String → ℤ) (observedAt : String)
    (components : List HealthResult) : HealthDocument :=
  let sorted := components.mergeSort fun a b ↦ decide (localeCompare a.id b.id ≤ 0)
  ⟨aggregateStatus (sorted.map (·.status)), observedAt, sorted⟩

def parseHealthDocument (localeCompare : String → String → ℤ) (other : String → Option ℤ)
    (value : Val) : Js HealthDocument := do
  let raw ← object value "health document"
  if !(raw.get "schemaVersion").isNumLit (.ofInt 1) then fail "unsupported health schema"
  else do
    let observedAt ← Box.Document.parseTime other (raw.get "observedAt")
    match raw.get "components" with
    | .arr values => do
        let components ← values.zipIdx.mapM fun p ↦ parseComponent p.1 p.2
        Box.Document.distinct [] components
        return createHealthDocument localeCompare observedAt components
    | _ => fail "health components must be a list"

/-! ## The two readers -/

theorem parseComponent_eq (value : Val) (index : ℕ) :
    parseComponent value index = Box.Document.parseComponent value index := rfl

theorem createHealthDocument_eq (localeCompare : String → String → ℤ) (observedAt : String)
    (components : List HealthResult) :
    createHealthDocument localeCompare observedAt components =
      Box.Document.createHealthDocument localeCompare observedAt components := rfl

theorem parseHealthDocument_eq (localeCompare : String → String → ℤ) (other : String → Option ℤ)
    (value : Val) :
    parseHealthDocument localeCompare other value =
      Box.Document.parseHealthDocument localeCompare other value := by
  unfold parseHealthDocument Box.Document.parseHealthDocument
  simp only [parseComponent_eq, createHealthDocument_eq]
  rfl

/-- What the box collects from facts it accepts is read as it was written, on the
box and at the client, whatever the probes answered; and no value is a document
to one of the two readers only. -/
theorem collected_reads_back {localeCompare : String → String → ℤ}
    (hcompare : Box.Document.TotalPreorder localeCompare) (other : String → Option ℤ) {value : Val}
    {facts : HealthFacts} (hfacts : parseHealthFacts value = .ok facts)
    (run : Box.Collect.CommandRunner) (now : Date) (stringify : Val → String)
    (parse : String → Js Val)
    (hjson : parse (stringify (Box.Collect.collectHostDocument localeCompare facts run now).toVal) =
      .ok (Box.Collect.collectHostDocument localeCompare facts run now).toVal) :
    let document := Box.Collect.collectHostDocument localeCompare facts run now
    parse (stringify document.toVal) >>= Box.Document.parseHealthDocument localeCompare other =
        .ok document ∧
      parse (stringify document.toVal) >>= parseHealthDocument localeCompare other =
        .ok document ∧
      ∀ v, Returns (parseHealthDocument localeCompare other v) ↔
        Returns (Box.Document.parseHealthDocument localeCompare other v) := by
  have hsound : Box.Document.Sound localeCompare other
      (Box.Collect.collectHostDocument localeCompare facts run now) :=
    Box.Collect.sound_collect hcompare hfacts run now
  have hread := Box.Document.parse_toVal hsound
  refine ⟨?_, ?_, fun v ↦ ?_⟩
  · rw [hjson, ok_bind, hread]
  · rw [hjson, ok_bind, parseHealthDocument_eq, hread]
  · rw [parseHealthDocument_eq]

/-! ## One box -/

/-- The order of two texts by their code points. -/
def byCode (a b : String) : ℤ := if a ≤ b then (if b ≤ a then 0 else -1) else 1

theorem byCode_le {a b : String} : byCode a b ≤ 0 ↔ a ≤ b := by
  unfold byCode
  by_cases hab : a ≤ b
  · simp only [hab, if_true, iff_true]
    split <;> omega
  · simp [hab]

theorem byCode_preorder : Box.Document.TotalPreorder byCode where
  total a b := by
    rw [byCode_le, byCode_le]
    exact String.le_total a b
  trans a b c := by
    rw [byCode_le, byCode_le, byCode_le]
    exact String.le_trans

def desktopFact : HealthComponentFact :=
  ⟨"desktop.xrdp", none, some "xrdp.service", none,
    some [.tcp "127.0.0.1" (.ofInt 3389) "xrdp" none], .automatic⟩

def sshFact : HealthComponentFact := ⟨"ssh", none, some "ssh.service", none, none, .manual⟩

/-- The text that holds `desktopFact` and `sshFact`. -/
def boxFacts : Val :=
  .obj [("schemaVersion", 1), ("components", .arr
    [.obj [("id", "desktop.xrdp"), ("unit", "xrdp.service"), ("listeners", .arr
       [.obj [("protocol", "tcp"), ("address", "127.0.0.1"), ("port", 3389), ("process", "xrdp")]]),
      ("recovery", "automatic")],
     .obj [("id", "ssh"), ("unit", "ssh.service"), ("recovery", "manual")]])]

/-- The desktop runs and listens, and the `systemctl` about ssh hangs. -/
def sshHangs : Box.Collect.CommandRunner
  | 0, _ =>
      some ⟨"LISTEN 0 2 127.0.0.1:3389 0.0.0.0:* users:((\"xrdp\",pid=7,fd=3))\n", "",
        some 0, false⟩
  | 2, _ =>
      some ⟨"LoadState=loaded\nActiveState=active\nSubState=running\nMainPID=7\n", "",
        some 0, false⟩
  | _, _ => some ⟨"", "", none, true⟩

def desktopResult : HealthResult :=
  ⟨"desktop.xrdp", none, .healthy, ["xrdp.service active", "127.0.0.1:3389 owned by xrdp"],
    ["active/running pid 7", "xrdp owns 127.0.0.1:3389"], none, .automatic⟩

def sshResult : HealthResult :=
  ⟨"ssh", none, .unknown, ["ssh.service active"], ["systemd probe timed out"],
    some "probe_timeout", .manual⟩

def boxDocument : HealthDocument :=
  ⟨.unknown, "2026-02-01T00:00:00.000Z", [desktopResult, sshResult]⟩

def boxText : String :=
  "\x7b\"schemaVersion\":1,\"status\":\"unknown\",\"observedAt\":\"2026-02-01T00:00:00.000Z\"," ++
  "\"components\":[\x7b\"id\":\"desktop.xrdp\",\"status\":\"healthy\"," ++
  "\"expected\":[\"xrdp.service active\",\"127.0.0.1:3389 owned by xrdp\"]," ++
  "\"observed\":[\"active/running pid 7\",\"xrdp owns 127.0.0.1:3389\"]," ++
  "\"recovery\":\"automatic\"\x7d,\x7b\"id\":\"ssh\",\"status\":\"unknown\"," ++
  "\"expected\":[\"ssh.service active\"],\"observed\":[\"systemd probe timed out\"]," ++
  "\"reason\":\"probe_timeout\",\"recovery\":\"manual\"\x7d]\x7d"

def february : Date := ⟨1769904000000, by omega⟩

theorem collect_box :
    Box.Collect.collectHostDocument byCode ⟨[desktopFact, sshFact]⟩ sshHangs february =
      boxDocument := by
  have htime : Date.toISOString february = "2026-02-01T00:00:00.000Z" := by decide +kernel
  have hresults : [desktopFact, sshFact].zipIdx.map (fun p ↦ Box.Collect.collectComponent
      sshHangs (p.2 + 2) (some (Box.Collect.safeRun sshHangs 0 ["ss", "-Hlnpt"])) none p.1) =
        [desktopResult, sshResult] := by decide +kernel
  have hsorted : [desktopResult, sshResult].mergeSort (Box.Document.idLe byCode) =
      [desktopResult, sshResult] := List.mergeSort_of_pairwise (by decide +kernel)
  have hcreate : Box.Collect.collectHostDocument byCode ⟨[desktopFact, sshFact]⟩ sshHangs
      february = Box.Document.createHealthDocument byCode (Date.toISOString february)
        ([desktopFact, sshFact].zipIdx.map fun p ↦ Box.Collect.collectComponent sshHangs
          (p.2 + 2) (some (Box.Collect.safeRun sshHangs 0 ["ss", "-Hlnpt"])) none p.1) := rfl
  rw [hcreate, hresults, htime, Box.Document.createHealthDocument, hsorted]
  rfl

/-- A component that is healthy and one whose probe hangs, and the text of their document. -/
theorem collected_reads_back_box :
    Box.Document.parseHealthDocument byCode (fun _ ↦ none) boxDocument.toVal = .ok boxDocument ∧
      parseHealthDocument byCode (fun _ ↦ none) boxDocument.toVal = .ok boxDocument := by
  have hfacts : parseHealthFacts boxFacts = .ok ⟨[desktopFact, sshFact]⟩ := rfl
  have h := collected_reads_back byCode_preorder (fun _ ↦ none) hfacts sshHangs february
    (fun _ ↦ boxText)
    (fun text ↦ if text = boxText then .ok boxDocument.toVal else fail "no JSON")
    (by rw [collect_box, if_pos rfl])
  simp only [collect_box, if_true, ok_bind] at h
  exact ⟨h.1, h.2.1⟩

end RemoteDevbox.Client.Document
