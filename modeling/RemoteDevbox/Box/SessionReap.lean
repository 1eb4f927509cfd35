import RemoteDevbox.Box.BrowserReap
import RemoteDevbox.Lib.Binary64
import RemoteDevbox.Lib.Py.Time
import Mathlib.Data.List.Sort
import Mathlib.Data.List.ReduceOption
import Mathlib.Logic.Relation

namespace RemoteDevbox.Box.SessionReap

open Py Reap

/-!
# The session reaper

It ends the process of a session that has finished. Which session a process is of
is read from its environment, which the processes it starts inherit or lose; whether
a session has finished is read from the record the daemon keeps.
-/

/-! ## The script -/

def AGENT_ENV_KEY : String := "PASEO_AGENT_ID"

def FINISHED_STATUSES : List String := ["idle", "closed"]

abbrev Record := List (Str × Value)

/-- `record.get(key)` -/
def field (record : Record) (key : String) : Value := (record.lookup (str key)).getD .none

structure Session where
  pid : ℤ
  agentId : Str
  status : Value
  idleHours : Option ℚ
  title : Value
  rssKb : ℤ
  startTs : ℤ

def Session.finished (s : Session) : Bool :=
  (FINISHED_STATUSES.any fun status ↦ (Value.str (str status)).eq s.status) && s.idleHours.isSome

/-- A key of a dictionary can be hashed. -/
def hashable : Value → Bool
  | .list _ => false
  | .dict _ => false
  | _ => true

/-- A record whose id is a number is stored too, and no process asks for it. -/
def readRecord (records : List (Str × Record)) (doc : Value) : Py (List (Str × Record)) :=
  match doc with
  | .dict record =>
      if !(field record "id").truthy then .ok records
      else if !hashable (field record "id") then .error .typeError
      else match field record "id" with
        | .str id => .ok (assign records id record)
        | _ => .ok records
  | _ => .ok records

/-- Of the documents that could be read and parsed, in the order they are come across. -/
def readRecords (docs : List Value) : Py (List (Str × Record)) := docs.foldlM readRecord []

def processEnv (procfs : Procfs) (pid : ℤ) (key : String) : Option (List Char) :=
  match procfs.file pid "environ" with
  | .found raw =>
      ((raw.splitOn nul).find? (Reap.startsWith · (key ++ "="))).map (·.drop (key.length + 1))
  | _ => none

structure ProcFacts where
  ppid : ℤ
  startTs : ℤ
  rssKb : ℤ
  deriving DecidableEq

/-- `pageKb` is the size of a page. -/
def procFacts (pageKb : ℤ) (procfs : Procfs) (pid : ℤ) : Option ProcFacts :=
  match procfs.file pid "stat", procfs.file pid "statm" with
  | .found stat, .found statm => do
      let rssPages ← numberAt (words statm) 1
      let ppid ← numberAt (words (afterLast ')' stat)) 1
      let startTs ← numberAt (words (afterLast ')' stat)) 19
      return ⟨ppid, startTs, rssPages * pageKb⟩
  | _, _ => none

structure Owner where
  agentId : Str
  facts : ProcFacts
  deriving DecidableEq

def readOwner (pageKb : ℤ) (procfs : Procfs) (pid : ℤ) : Option Owner := do
  let agentId ← processEnv procfs pid AGENT_ENV_KEY
  guard (agentId ≠ [])
  let facts ← procFacts pageKb procfs pid
  return ⟨agentId.map .char, facts⟩

/-- A directory lists each process once. -/
def owned (pageKb : ℤ) (procfs : Procfs) : List (ℤ × Owner) :=
  procfs.pids.dedup.filterMap fun pid ↦ (readOwner pageKb procfs pid).map fun owner ↦ (pid, owner)

section

-- Whether a slice can be a key, as from Python 3.12 on, and the reading of the clock.
variable (sliceKey : Bool) (now cutoff : ℚ) (pageKb : ℤ)

/-- The hours from a time, in seconds, until now. -/
def hoursFrom (seconds : ℤ) : ℚ := Binary64.round (Binary64.round (now - seconds) / 3600)

def hoursSince (stamp : Value) : Py (Option ℚ) :=
  if !stamp.truthy then .ok none
  else match stamp with
    | .str s => .ok ((Time.secondsOf (s.take 19)).map (hoursFrom now))
    -- the error of a key that is not there is not caught, that of no key is
    | .dict _ => if sliceKey then .error .keyError else .ok none
    | _ => .ok none

/-- `(title or "")[:60]` -/
def shortTitle (title : Value) : Py Value :=
  match title.orElse "" with
  | .str s => .ok (.str (s.take 60))
  | .list xs => .ok (.list (xs.take 60))
  | .dict _ => .error (if sliceKey then .keyError else .typeError)
  | _ => .error .typeError

def lastActivity (record : Record) : Value :=
  (field record "lastActivityAt").orElse (field record "updatedAt")

def readSession (records : List (Str × Record)) (owners : List (ℤ × Owner)) (entry : ℤ × Owner) :
    Py (Option Session) :=
  if (owners.lookup entry.2.facts.ppid).any fun parent ↦ parent.agentId == entry.2.agentId then
    .ok none
  else match records.lookup entry.2.agentId with
    | none => .ok none
    | some record => do
        let idleHours ← hoursSince sliceKey now (lastActivity record)
        let title ← shortTitle sliceKey (field record "title")
        return some ⟨entry.1, entry.2.agentId, (field record "lastStatus").orElse "unknown",
          idleHours, title, entry.2.facts.rssKb, entry.2.facts.startTs⟩

/-- The largest first. -/
def readSessions (records : List (Str × Record)) (procfs : Procfs) : Py (List Session) := do
  let sessions ← (owned pageKb procfs).mapM (readSession sliceKey now records (owned pageKb procfs))
  return sessions.reduceOption.insertionSort fun s t ↦ t.rssKb ≤ s.rssKb

/-- `idleHours` is there where the session has finished. -/
def select (sessions : List Session) : List Session :=
  sessions.filter fun s ↦ s.finished && s.idleHours.any (· > cutoff)

/-- What `main` goes on to release. -/
def victims (docs : List Value) (procfs : Procfs) : Py (List Session) := do
  let records ← readRecords docs
  let sessions ← readSessions sliceKey now pageKb records procfs
  return select cutoff sessions

end

/-! ## What is to be selected -/

/-- The process is in the table and says which session it is of. -/
def Belongs (pageKb : ℤ) (procfs : Procfs) (id : Str) (pid : ℤ) : Prop :=
  ∃ owner, (pid, owner) ∈ owned pageKb procfs ∧ owner.agentId = id

def Parent (procfs : Procfs) (pid ppid : ℤ) : Prop :=
  ∃ stat, procfs.file pid "stat" = .found stat ∧
    numberAt (words (afterLast ')' stat)) 1 = some ppid

/-- Among the ancestors of the process is one of the session. -/
def HasAncestor (pageKb : ℤ) (procfs : Procfs) (id : Str) (pid : ℤ) : Prop :=
  ∃ a, Relation.TransGen (Parent procfs) pid a ∧ Belongs pageKb procfs id a

/-- One step up between processes of the session. -/
def Within (pageKb : ℤ) (procfs : Procfs) (id : Str) (pid ppid : ℤ) : Prop :=
  Parent procfs pid ppid ∧ Belongs pageKb procfs id pid ∧ Belongs pageKb procfs id ppid

/-- A document with its id. -/
def keyed : Value → Option (Str × Record)
  | .dict record =>
      match field record "id" with
      | .str id => if id = [] then none else some (id, record)
      | _ => none
  | _ => none

/-- The record of a session is the last of its documents. -/
def recordOf (docs : List Value) (id : Str) : Option Record := (docs.filterMap keyed).reverse.lookup id

section

variable (now cutoff : ℚ) (pageKb : ℤ)

/-- The record says that the session has finished, and long enough ago. -/
def Finished (record : Record) : Prop :=
  (∃ status ∈ FINISHED_STATUSES, field record "lastStatus" = .str (str status)) ∧
    ∃ stamp seconds, lastActivity record = .str stamp ∧ stamp ≠ [] ∧
      Time.secondsOf (stamp.take 19) = some seconds ∧ cutoff < hoursFrom now seconds

def Over (docs : List Value) (id : Str) : Prop :=
  ∃ record, recordOf docs id = some record ∧ Finished now cutoff record

/-- Exactly the roots of the sessions that are over, and nothing of another session
under one of them. -/
structure Exact (docs : List Value) (procfs : Procfs) (selected : List Session) : Prop where
  nodup : (selected.map Session.pid).Nodup
  mem_iff : ∀ pid, pid ∈ selected.map Session.pid ↔
    ∃ id, Belongs pageKb procfs id pid ∧ Over now cutoff docs id ∧
      ¬HasAncestor pageKb procfs id pid
  spared : ∀ victim ∈ selected, ∀ id pid, Belongs pageKb procfs id pid →
    ¬Over now cutoff docs id → ¬Relation.ReflTransGen (Within pageKb procfs id) pid victim.pid

end

/-! ## The records -/

/-- The id can be a key of the records. -/
def Keyable (doc : Value) : Prop :=
  ∀ record, doc = .dict record → (field record "id").truthy = true →
    hashable (field record "id") = true

theorem readRecord_eq_ok {records out : List (Str × Record)} {doc : Value} :
    readRecord records doc = .ok out ↔
      Keyable doc ∧ (keyed doc).toList.foldl (fun out p ↦ assign out p.1 p.2) records = out := by
  cases doc with
  | dict record =>
      have hkeyable : Keyable (.dict record) ↔
          ((field record "id").truthy = true → hashable (field record "id") = true) :=
        ⟨fun h ↦ h record rfl, fun h r hr ↦ by cases hr; exact h⟩
      rw [hkeyable, readRecord, keyed]
      cases hid : field record "id" with
      | str id => by_cases hnil : id = [] <;> simp [hnil, Value.truthy, hashable]
      | list xs => cases xs <;> simp [Value.truthy, hashable]
      | dict fs => cases fs <;> simp [Value.truthy, hashable]
      | _ => simp [hashable]
  | _ => simp [readRecord, keyed, Keyable]

theorem readRecords_eq_ok {docs : List Value} {records : List (Str × Record)} :
    readRecords docs = .ok records ↔ (∀ doc ∈ docs, Keyable doc) ∧
      (docs.filterMap keyed).foldl (fun out p ↦ assign out p.1 p.2) [] = records := by
  unfold readRecords
  generalize ([] : List (Str × Record)) = stored
  induction docs generalizing stored with
  | nil => simp
  | cons doc docs ih =>
      have hstep : ((doc :: docs).filterMap keyed).foldl (fun out p ↦ assign out p.1 p.2) stored =
          (docs.filterMap keyed).foldl (fun out p ↦ assign out p.1 p.2)
            ((keyed doc).toList.foldl (fun out p ↦ assign out p.1 p.2) stored) := by
        cases h : keyed doc <;> simp [h]
      simp only [List.foldlM_cons, bind_eq_ok, ih, readRecord_eq_ok, List.forall_mem_cons, hstep]
      constructor
      · rintro ⟨_, ⟨hdoc, rfl⟩, hdocs, hrecords⟩
        exact ⟨⟨hdoc, hdocs⟩, hrecords⟩
      · rintro ⟨⟨hdoc, hdocs⟩, hrecords⟩
        exact ⟨_, ⟨hdoc, rfl⟩, hdocs, hrecords⟩

theorem lookup_records (docs : List Value) (id : Str) :
    ((docs.filterMap keyed).foldl (fun out p ↦ assign out p.1 p.2) []).lookup id =
      recordOf docs id := by
  rw [lookup_foldl_assign, recordOf]
  simp

/-! ## The processes -/

section

variable {pageKb : ℤ} {procfs : Procfs} {pid : ℤ} {owner : Owner} {id : Str}

theorem mem_owned :
    (pid, owner) ∈ owned pageKb procfs ↔
      pid ∈ procfs.pids ∧ readOwner pageKb procfs pid = some owner := by
  simp only [owned, List.mem_filterMap, List.mem_dedup, Option.map_eq_some_iff, Prod.mk.injEq]
  constructor
  · rintro ⟨_, hpid, _, howner, rfl, rfl⟩
    exact ⟨hpid, howner⟩
  · rintro ⟨hpid, howner⟩
    exact ⟨pid, hpid, owner, howner, rfl, rfl⟩

theorem nodup_owned (pageKb : ℤ) (procfs : Procfs) : ((owned pageKb procfs).map Prod.fst).Nodup := by
  rw [owned, List.map_filterMap]
  refine (List.nodup_dedup procfs.pids).filterMap fun pid pid' listed h h' ↦ ?_
  simp only [Option.mem_def, Option.map_eq_some_iff] at h h'
  obtain ⟨_, ⟨_, _, rfl⟩, rfl⟩ := h
  obtain ⟨_, ⟨_, _, rfl⟩, hsame⟩ := h'
  exact hsame.symm

theorem lookup_owned :
    (owned pageKb procfs).lookup pid = some owner ↔ (pid, owner) ∈ owned pageKb procfs :=
  ⟨mem_of_lookup, lookup_of_mem (nodup_owned pageKb procfs)⟩

/-- The parent that is read with a process. -/
theorem parent_iff (h : (pid, owner) ∈ owned pageKb procfs) {ppid : ℤ} :
    Parent procfs pid ppid ↔ ppid = owner.facts.ppid := by
  obtain ⟨_, howner⟩ := mem_owned.mp h
  simp only [readOwner, bind, Option.bind_eq_some_iff, pure, Option.some.injEq] at howner
  obtain ⟨_, _, _, _, facts, hfacts, rfl⟩ := howner
  unfold procFacts at hfacts
  split at hfacts
  · rename_i stat statm hstat _
    simp only [bind, Option.bind_eq_some_iff, pure, Option.some.injEq] at hfacts
    obtain ⟨_, _, first, hfirst, _, _, rfl⟩ := hfacts
    constructor
    · rintro ⟨stat', hstat', hppid⟩
      rw [hstat] at hstat'
      obtain rfl := Reading.found.inj hstat'
      rw [hfirst] at hppid
      exact (Option.some.inj hppid).symm
    · rintro rfl
      exact ⟨stat, hstat, hfirst⟩
  · cases hfacts

theorem child_iff : ((owned pageKb procfs).lookup owner.facts.ppid).any
      (fun parent ↦ parent.agentId == owner.agentId) = true ↔
    Belongs pageKb procfs owner.agentId owner.facts.ppid := by
  simp only [Option.any_eq_true, lookup_owned, Belongs, beq_iff_eq]

end

/-! ## One session -/

section

variable {sliceKey : Bool} {now cutoff : ℚ} {pageKb : ℤ}

/-- A time stamp that is no text counts for none, but for a dictionary with a key where a slice
can be one. -/
def Datable (sliceKey : Bool) (stamp : Value) : Prop :=
  sliceKey = true → ¬(stamp.isDict = true ∧ stamp.truthy = true)

def Sliceable (title : Value) : Prop :=
  title.truthy = true → (∃ s, title = .str s) ∨ ∃ xs, title = .list xs

/-- What makes an entry of the session can be read in the record. -/
def Readable (sliceKey : Bool) (record : Record) : Prop :=
  Datable sliceKey (lastActivity record) ∧ Sliceable (field record "title")

theorem hoursSince_ok (sliceKey : Bool) (now : ℚ) (stamp : Value) :
    (∃ hours, hoursSince sliceKey now stamp = .ok hours) ↔ Datable sliceKey stamp := by
  cases stamp with
  | str s => cases s <;> simp [hoursSince, Datable, Value.isDict, Value.truthy]
  | dict fs =>
      cases fs <;> cases sliceKey <;> simp [hoursSince, Datable, Value.isDict, Value.truthy]
  | list xs => cases xs <;> simp [hoursSince, Datable, Value.isDict, Value.truthy]
  | _ =>
      simp only [hoursSince, Datable, Value.isDict]
      split <;> simp

theorem hoursSince_eq_some {stamp : Value} {hours : ℚ} :
    hoursSince sliceKey now stamp = .ok (some hours) ↔
      ∃ s seconds, stamp = .str s ∧ s ≠ [] ∧ Time.secondsOf (s.take 19) = some seconds ∧
        hoursFrom now seconds = hours := by
  cases stamp with
  | str s => cases s <;> simp [hoursSince, Value.truthy]
  | dict fs => cases fs <;> cases sliceKey <;> simp [hoursSince, Value.truthy]
  | list xs => cases xs <;> simp [hoursSince, Value.truthy]
  | _ =>
      simp only [hoursSince]
      split <;> simp

theorem shortTitle_ok (sliceKey : Bool) (title : Value) :
    (∃ text, shortTitle sliceKey title = .ok text) ↔ Sliceable title := by
  have hempty : shortTitle sliceKey title = .ok (.str []) ∨ title.truthy = true := by
    cases htruthy : title.truthy with
    | true => exact .inr rfl
    | false =>
        refine .inl ?_
        rw [shortTitle, Value.orElse, htruthy]
        rfl
  rcases hempty with hempty | htruthy
  · rw [hempty]
    refine ⟨fun _ htruthy ↦ ?_, fun _ ↦ ⟨_, rfl⟩⟩
    rw [shortTitle, Value.orElse, if_pos htruthy] at hempty
    cases title with
    | str s => exact .inl ⟨s, rfl⟩
    | _ => simp at hempty
  · rw [shortTitle, Value.orElse, if_pos htruthy, Sliceable]
    cases title <;> simp [htruthy]

theorem orElse_unknown {status : Value} {name : Str} (hne : name ≠ []) (hname : name ≠ str "unknown") :
    (Value.str name).eq (status.orElse "unknown") = true ↔ status = .str name := by
  constructor
  · intro h
    have heq := Value.eq_str h
    rw [Value.orElse] at heq
    split at heq
    · exact heq
    · exact absurd (Value.str.inj heq).symm hname
  · rintro rfl
    rw [Value.orElse, if_pos (by simpa [Value.truthy] using hne)]
    simp [Value.eq]

/-- What `select` asks of the entry of a session, and what the record says. -/
theorem selected_iff {pid : ℤ} {id : Str} {record : Record} {idleHours : Option ℚ}
    {title : Value} {rssKb startTs : ℤ}
    (hhours : hoursSince sliceKey now (lastActivity record) = .ok idleHours) :
    ((⟨pid, id, (field record "lastStatus").orElse "unknown", idleHours, title, rssKb, startTs⟩ :
        Session).finished && idleHours.any (· > cutoff)) = true ↔ Finished now cutoff record := by
  have hstatus : ∀ status ∈ FINISHED_STATUSES,
      ((Value.str (str status)).eq ((field record "lastStatus").orElse "unknown") = true ↔
        field record "lastStatus" = .str (str status)) := by
    intro status hmem
    have hnames : ∀ s ∈ FINISHED_STATUSES, str s ≠ [] ∧ str s ≠ str "unknown" := by decide
    exact orElse_unknown (hnames status hmem).1 (hnames status hmem).2
  have hage : idleHours.any (· > cutoff) = true ↔ ∃ stamp seconds, lastActivity record = .str stamp ∧
      stamp ≠ [] ∧ Time.secondsOf (stamp.take 19) = some seconds ∧ cutoff < hoursFrom now seconds := by
    rw [Option.any_eq_true]
    constructor
    · rintro ⟨hours, rfl, hexpired⟩
      obtain ⟨stamp, seconds, hstamp, hne, hseconds, rfl⟩ := hoursSince_eq_some.mp hhours
      exact ⟨stamp, seconds, hstamp, hne, hseconds, of_decide_eq_true hexpired⟩
    · rintro ⟨stamp, seconds, hstamp, hne, hseconds, hexpired⟩
      have hsome : hoursSince sliceKey now (lastActivity record) = .ok (some (hoursFrom now seconds)) :=
        hoursSince_eq_some.mpr ⟨stamp, seconds, hstamp, hne, hseconds, rfl⟩
      rw [hhours] at hsome
      exact ⟨_, Except.ok.inj hsome, decide_eq_true hexpired⟩
  simp only [Session.finished, Bool.and_eq_true, List.any_eq_true, hage, Finished]
  constructor
  · rintro ⟨⟨⟨status, hmem, heq⟩, _⟩, hexpired⟩
    exact ⟨⟨status, hmem, (hstatus status hmem).mp heq⟩, hexpired⟩
  · rintro ⟨⟨status, hmem, heq⟩, hexpired⟩
    refine ⟨⟨⟨status, hmem, (hstatus status hmem).mpr heq⟩, ?_⟩, hexpired⟩
    obtain ⟨hours, hhours', _⟩ := (Option.any_eq_true _ _).mp (hage.mpr hexpired)
    rw [hhours']
    rfl

theorem readSession_eq_ok {records : List (Str × Record)} {procfs : Procfs} {pid : ℤ} {owner : Owner}
    {session : Option Session} :
    readSession sliceKey now records (owned pageKb procfs) (pid, owner) = .ok session ↔
      (Belongs pageKb procfs owner.agentId owner.facts.ppid ∨ records.lookup owner.agentId = none) ∧
          none = session ∨
        ¬Belongs pageKb procfs owner.agentId owner.facts.ppid ∧
          ∃ record idleHours title, records.lookup owner.agentId = some record ∧
            hoursSince sliceKey now (lastActivity record) = .ok idleHours ∧
            shortTitle sliceKey (field record "title") = .ok title ∧
            some ⟨pid, owner.agentId, (field record "lastStatus").orElse "unknown", idleHours, title,
              owner.facts.rssKb, owner.facts.startTs⟩ = session := by
  unfold readSession
  by_cases hchild : Belongs pageKb procfs owner.agentId owner.facts.ppid
  · rw [if_pos (child_iff.mpr hchild)]
    simp [hchild]
  · rw [if_neg (fun h ↦ hchild (child_iff.mp h))]
    cases hrecord : records.lookup owner.agentId with
    | none => simp [hchild]
    | some record =>
        simp only [bind_eq_ok, pure_eq_ok, Except.ok.injEq, hchild, false_or, reduceCtorEq, false_and,
          not_false_eq_true, true_and, Option.some.injEq]
        constructor
        · rintro ⟨idleHours, hhours, title, htitle, hsession⟩
          exact ⟨record, idleHours, title, rfl, hhours, htitle, hsession⟩
        · rintro ⟨_, idleHours, title, rfl, hhours, htitle, hsession⟩
          exact ⟨idleHours, hhours, title, htitle, hsession⟩

end

/-! ## The sweep -/

section

variable {sliceKey : Bool} {now cutoff : ℚ} {pageKb : ℤ} {docs : List Value} {procfs : Procfs}

/-- A process of the session started it. -/
def HasParent (pageKb : ℤ) (procfs : Procfs) (id : Str) (pid : ℤ) : Prop :=
  ∃ ppid, Parent procfs pid ppid ∧ Belongs pageKb procfs id ppid

theorem hasParent_iff {pid : ℤ} {owner : Owner} {id : Str} (h : (pid, owner) ∈ owned pageKb procfs) :
    HasParent pageKb procfs id pid ↔ Belongs pageKb procfs id owner.facts.ppid := by
  constructor
  · rintro ⟨ppid, hparent, hbelongs⟩
    exact (parent_iff h).mp hparent ▸ hbelongs
  · exact fun hbelongs ↦ ⟨_, (parent_iff h).mpr rfl, hbelongs⟩

/-- The documents and the table let the sweep come to its end. -/
def Legible (sliceKey : Bool) (pageKb : ℤ) (docs : List Value) (procfs : Procfs) : Prop :=
  (∀ doc ∈ docs, Keyable doc) ∧
    ∀ id pid, Belongs pageKb procfs id pid → ¬HasParent pageKb procfs id pid →
      ∀ record, recordOf docs id = some record → Readable sliceKey record

theorem victims_eq_ok {selected : List Session} :
    victims sliceKey now cutoff pageKb docs procfs = .ok selected ↔
      (∀ doc ∈ docs, Keyable doc) ∧
        ∃ found, List.Forall₂ (fun entry session ↦
            readSession sliceKey now ((docs.filterMap keyed).foldl (fun out p ↦ assign out p.1 p.2) [])
              (owned pageKb procfs) entry = .ok session) (owned pageKb procfs) found ∧
          select cutoff (found.reduceOption.insertionSort fun s t ↦ t.rssKb ≤ s.rssKb) = selected := by
  simp only [victims, readSessions, bind_eq_ok, readRecords_eq_ok, mapM_eq_ok, pure_eq_ok,
    Except.ok.injEq]
  constructor
  · rintro ⟨_, ⟨hdocs, rfl⟩, _, ⟨found, hfound, rfl⟩, hselected⟩
    exact ⟨hdocs, found, hfound, hselected⟩
  · rintro ⟨hdocs, found, hfound, hselected⟩
    exact ⟨_, ⟨hdocs, rfl⟩, _, ⟨found, hfound, rfl⟩, hselected⟩

theorem victims_ok_iff :
    (∃ selected, victims sliceKey now cutoff pageKb docs procfs = .ok selected) ↔
      Legible sliceKey pageKb docs procfs := by
  simp only [victims_eq_ok]
  constructor
  · rintro ⟨_, hdocs, found, hfound, _⟩
    refine ⟨hdocs, ?_⟩
    rintro id pid ⟨owner, howner, rfl⟩ hroot record hrecord
    obtain ⟨session, _, hsession⟩ := forall₂_exists_left hfound.flip howner
    rcases readSession_eq_ok.mp hsession with ⟨hnone, _⟩ | ⟨_, record', _, _, hrecord', hhours, htitle, _⟩
    · rcases hnone with hchild | hnone
      · exact absurd ((hasParent_iff howner).mpr hchild) hroot
      · rw [lookup_records, hrecord] at hnone
        cases hnone
    · rw [lookup_records, hrecord] at hrecord'
      obtain rfl := Option.some.inj hrecord'
      exact ⟨(hoursSince_ok sliceKey now _).mp ⟨_, hhours⟩, (shortTitle_ok sliceKey _).mp ⟨_, htitle⟩⟩
  · rintro ⟨hdocs, hreadable⟩
    have hall : ∀ entry ∈ owned pageKb procfs, ∃ session : Option Session,
        readSession sliceKey now ((docs.filterMap keyed).foldl (fun out p ↦ assign out p.1 p.2) [])
          (owned pageKb procfs) entry = .ok session := by
      rintro ⟨pid, owner⟩ howner
      by_cases hchild : Belongs pageKb procfs owner.agentId owner.facts.ppid
      · exact ⟨none, readSession_eq_ok.mpr (.inl ⟨.inl hchild, rfl⟩)⟩
      · cases hrecord : recordOf docs owner.agentId with
        | none => exact ⟨none, readSession_eq_ok.mpr (.inl ⟨.inr (by rw [lookup_records, hrecord]), rfl⟩)⟩
        | some record =>
            obtain ⟨hdatable, hsliceable⟩ := hreadable _ pid ⟨owner, howner, rfl⟩
              (fun h ↦ hchild ((hasParent_iff howner).mp h)) record hrecord
            obtain ⟨idleHours, hhours⟩ := (hoursSince_ok sliceKey now _).mpr hdatable
            obtain ⟨title, htitle⟩ := (shortTitle_ok sliceKey _).mpr hsliceable
            exact ⟨_, readSession_eq_ok.mpr (.inr ⟨hchild, record, idleHours, title,
              by rw [lookup_records, hrecord], hhours, htitle, rfl⟩)⟩
    obtain ⟨found, hfound⟩ := exists_forall₂ hall
    exact ⟨_, hdocs, found, hfound, rfl⟩

theorem mem_victims {selected : List Session}
    (h : victims sliceKey now cutoff pageKb docs procfs = .ok selected) (pid : ℤ) :
    pid ∈ selected.map Session.pid ↔ ∃ id, Belongs pageKb procfs id pid ∧ Over now cutoff docs id ∧
      ¬HasParent pageKb procfs id pid := by
  obtain ⟨_, found, hfound, rfl⟩ := victims_eq_ok.mp h
  simp only [select, List.mem_map, List.mem_filter, List.mem_insertionSort, List.reduceOption_mem_iff]
  constructor
  · rintro ⟨session, ⟨hmem, hselected⟩, rfl⟩
    obtain ⟨⟨pid, owner⟩, howner, hsession⟩ := forall₂_exists_left hfound hmem
    rcases readSession_eq_ok.mp hsession with
      ⟨_, hnone⟩ | ⟨hroot, record, idleHours, title, hrecord, hhours, _, hsome⟩
    · cases hnone
    · obtain rfl := Option.some.inj hsome
      rw [lookup_records] at hrecord
      exact ⟨owner.agentId, ⟨owner, howner, rfl⟩, ⟨record, hrecord, (selected_iff hhours).mp hselected⟩,
        fun hparent ↦ hroot ((hasParent_iff howner).mp hparent)⟩
  · rintro ⟨_, ⟨owner, howner, rfl⟩, ⟨record, hrecord, hfinished⟩, hroot⟩
    obtain ⟨session, hmem, hsession⟩ := forall₂_exists_left hfound.flip howner
    rcases readSession_eq_ok.mp hsession with
      ⟨hnone, _⟩ | ⟨_, record', idleHours, title, hrecord', hhours, _, rfl⟩
    · rcases hnone with hchild | hnone
      · exact absurd ((hasParent_iff howner).mpr hchild) hroot
      · rw [lookup_records, hrecord] at hnone
        cases hnone
    · rw [lookup_records, hrecord] at hrecord'
      obtain rfl := Option.some.inj hrecord'
      exact ⟨_, ⟨hmem, (selected_iff hhours).mpr hfinished⟩, rfl⟩

theorem nodup_victims {selected : List Session}
    (h : victims sliceKey now cutoff pageKb docs procfs = .ok selected) :
    (selected.map Session.pid).Nodup := by
  obtain ⟨_, found, hfound, rfl⟩ := victims_eq_ok.mp h
  have hpids : List.Forall₂ (fun entry session ↦ ∀ s : Session, session = some s → s.pid = entry.1)
      (owned pageKb procfs) found := by
    refine hfound.imp fun entry session hsession ↦ ?_
    rintro s rfl
    rcases readSession_eq_ok.mp hsession with ⟨_, hnone⟩ | ⟨_, _, _, _, _, _, _, hsome⟩
    · cases hnone
    · rw [← Option.some.inj hsome]
  have hkept := sublist_of_forall₂ hpids
  refine List.Nodup.sublist (List.filter_sublist.map _) ?_
  exact (((List.perm_insertionSort _ _).map Session.pid).nodup_iff).mpr
    ((nodup_owned pageKb procfs).sublist hkept)

/-- Nothing of a session that goes on is under a process that is selected. -/
theorem spared_victims {selected : List Session}
    (h : victims sliceKey now cutoff pageKb docs procfs = .ok selected) {victim : Session}
    (hvictim : victim ∈ selected) {id : Str} {pid : ℤ} (hpid : Belongs pageKb procfs id pid)
    (hgoes : ¬Over now cutoff docs id) :
    ¬Relation.ReflTransGen (Within pageKb procfs id) pid victim.pid := by
  intro hunder
  obtain ⟨id', ⟨owner', howner', rfl⟩, hover, _⟩ :=
    (mem_victims h victim.pid).mp (List.mem_map_of_mem hvictim)
  have hsession : Belongs pageKb procfs id victim.pid := by
    rcases Relation.ReflTransGen.cases_tail hunder with heq | ⟨_, _, hlast⟩
    · rwa [heq]
    · exact hlast.2.2
  obtain ⟨owner, howner, rfl⟩ := hsession
  have hsame := lookup_owned.mpr howner
  rw [lookup_owned.mpr howner'] at hsame
  obtain rfl := Option.some.inj hsame
  exact hgoes hover

theorem hasAncestor_of_hasParent {id : Str} {pid : ℤ} (h : HasParent pageKb procfs id pid) :
    HasAncestor pageKb procfs id pid := by
  obtain ⟨ppid, hparent, hbelongs⟩ := h
  exact ⟨ppid, .single hparent, hbelongs⟩

/-- Of every clock, cutoff and size of a page, on old and new versions of the language. -/
theorem selection_exact_iff :
    (∃ selected, victims sliceKey now cutoff pageKb docs procfs = .ok selected ∧
        Exact now cutoff pageKb docs procfs selected) ↔
      Legible sliceKey pageKb docs procfs ∧
        ∀ id pid, Belongs pageKb procfs id pid → Over now cutoff docs id →
          HasAncestor pageKb procfs id pid → HasParent pageKb procfs id pid := by
  constructor
  · rintro ⟨selected, hok, hexact⟩
    refine ⟨victims_ok_iff.mp ⟨selected, hok⟩, fun id pid hpid hover hancestor ↦ ?_⟩
    by_contra hroot
    obtain ⟨id', ⟨owner', howner', rfl⟩, _, hnone⟩ :=
      (hexact.mem_iff pid).mp ((mem_victims hok pid).mpr ⟨id, hpid, hover, hroot⟩)
    obtain ⟨owner, howner, rfl⟩ := hpid
    have hsame := lookup_owned.mpr howner
    rw [lookup_owned.mpr howner'] at hsame
    obtain rfl := Option.some.inj hsame
    exact hnone hancestor
  · rintro ⟨hlegible, hlinked⟩
    obtain ⟨selected, hok⟩ : ∃ selected, victims sliceKey now cutoff pageKb docs procfs = .ok selected :=
      victims_ok_iff.mpr hlegible
    refine ⟨selected, hok, nodup_victims hok, fun pid ↦ ?_, fun victim hvictim id pid hpid hgoes ↦
      spared_victims hok hvictim hpid hgoes⟩
    rw [mem_victims hok]
    constructor
    · rintro ⟨id, hpid, hover, hroot⟩
      exact ⟨id, hpid, hover, fun hancestor ↦ hroot (hlinked id pid hpid hover hancestor)⟩
    · rintro ⟨id, hpid, hover, hnone⟩
      exact ⟨id, hpid, hover, fun hparent ↦ hnone (hasAncestor_of_hasParent hparent)⟩

end

/-- Processes with their parents, and the session of some. -/
def processes (table : List (ℤ × String × String)) : Procfs where
  pids := table.map Prod.fst
  file := fun pid name ↦
    match table.lookup pid with
    | none => .absent
    | some (ppid, agentId) =>
        match name with
        | "environ" =>
            .found (if agentId = "" then "HOME=/home/ada".toList
              else "HOME=/home/ada".toList ++ nul :: "PASEO_AGENT_ID=".toList ++ agentId.toList ++ [nul])
        | "stat" =>
            .found ("1 (omp) S ".toList ++ ppid.toList ++
              " 2 3 4 5 6 7 8 9 10 11 12 13 14 15 16 17 18 19 20".toList)
        | "statm" => .found "100 50".toList
        | _ => .absent
  fds := fun _ ↦ .absent
  tables := []

/-- A session that has finished. -/
def idle : Value := .dict [(str "id", "a1"), (str "lastStatus", "idle"),
  (str "lastActivityAt", "2026-09-08T10:00:00Z")]

/-- A session, a shell in it that has dropped the variable, and what the shell started. -/
def dropped : Procfs := processes [(10, "1", "a1"), (11, "10", ""), (12, "11", "a1")]

/-- Both ends of the chain are selected. -/
theorem child_selected :
    ∃ selected, victims true 1788948000 12 4 [idle] dropped = .ok selected ∧
      selected.map Session.pid = [10, 12] ∧
      ¬Exact 1788948000 12 4 [idle] dropped selected := by
  have hpids : (victims true 1788948000 12 4 [idle] dropped).toOption.map
      (·.map Session.pid) = some [10, 12] := by decide +kernel
  have hroot : readOwner 4 dropped 10 = some ⟨str "a1", 1, 19, 200⟩ := by decide +kernel
  have hchild : readOwner 4 dropped 12 = some ⟨str "a1", 11, 19, 200⟩ := by decide +kernel
  have hshell : Parent dropped 11 10 := ⟨"1 (omp) S 10 2 3 4 5 6 7 8 9 10 11 12 13 14 15 16 17 18 19 20".toList,
    by decide +kernel, by decide +kernel⟩
  have hancestor : HasAncestor 4 dropped (str "a1") 12 := by
    have hstarted := (parent_iff (mem_owned.mpr ⟨by decide, hchild⟩)).mpr rfl
    exact ⟨10, .tail (.single hstarted) hshell, _, mem_owned.mpr ⟨by decide, hroot⟩, rfl⟩
  cases hok : victims true 1788948000 12 4 [idle] dropped with
  | error e =>
      rw [hok] at hpids
      cases hpids
  | ok selected =>
      rw [hok] at hpids
      have hpids : selected.map Session.pid = [10, 12] := Option.some.inj hpids
      refine ⟨selected, rfl, hpids, fun h ↦ ?_⟩
      obtain ⟨_, ⟨owner, howner, rfl⟩, _, hnone⟩ := (h.mem_iff 12).mp (by rw [hpids]; decide)
      have hsame := (mem_owned.mp howner).2
      rw [hchild] at hsame
      obtain rfl := Option.some.inj hsame
      exact hnone hancestor

end RemoteDevbox.Box.SessionReap
