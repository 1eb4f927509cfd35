import RemoteDevbox.Account.Vault
import RemoteDevbox.Lib.Runs

namespace RemoteDevbox.Account

/-!
# The account script, step by step

A command is cut at every read and every write of a file, so that anything may
happen in between: another command, a login, or the end of the script. Only the
lock directory keeps two commands apart.
-/

def labelChar (c : Char) : Bool := Regex.isAlnum c || c == '.' || c == '_' || c == '-'

/-- The labels that `add` takes. -/
def plainLabel (label : String) : Bool := label != "" && label.toList.all labelChar

/-- One more part of a path. -/
def descend (path : List (List Char)) (part : List Char) : List (List Char) :=
  if part = [] ∨ part = ['.'] then path
  else if part = ['.', '.'] ∧ path ≠ [] then path.dropLast
  else path ++ [part]

/-- The directory of the vault that a label of `use` or `rm` leads to; a label
that `add` took is the directory's name. -/
def dirOf (label : String) : String :=
  if plainLabel label then label
  else String.ofList (['/'].intercalate ((label.toList.splitOn '/').foldl descend []))

structure Use where
  label : String
  force : Bool
  /-- `none` is no whole number. -/
  keep : Option ℕ
  deriving DecidableEq

def Use.dir (u : Use) : String := dirOf u.label

/-- What a captured pair is for. -/
inductive Job where
  | use (u : Use) (active : String)
  | add (label : String)
  deriving DecidableEq

/-- The label whose directory gets the pair; `add` took it, now or before. -/
def Job.into : Job → String
  | .use _ active => active
  | .add label => label

/-- Where `credential-heal` of a parked pair is called. -/
inductive Healing where
  | again (u : Use)
  | swap (u : Use) (captured : Bool)
  | adopt (label : String) (row : Info)
  deriving DecidableEq

/-- The directory of the pair. -/
def Healing.dir : Healing → String
  | .again u => u.dir
  | .swap u _ => u.dir
  | .adopt label _ => label

/-- The next step of a command, with its local variables. `captured` tells
whether the live pair was copied on the way. -/
inductive Pc where
  | idle
  | useCheck (u : Use)
  | useActive (u : Use)
  | useStore (u : Use)
  | useCompare (u : Use)
  | reload (u : Use)
  | useRunning (u : Use) (active : Option String) (healOnly : Bool)
  | useLock (u : Use) (active : Option String) (healOnly : Bool)
  | useTree (u : Use) (active : Option String) (healOnly : Bool)
  | extract (j : Job)
  | save (j : Job) (identity : Identity)
  | verify (j : Job) (identity : Identity) (cred : Credential)
  | commitIdentity (j : Job) (identity : Identity) (cred : Credential)
  | commitCredential (j : Job) (cred : Credential)
  | snapshot (u : Use) (active : String)
  | stash (u : Use) (active : String) (identity : Identity) (cred : Credential)
  | usePrune (u : Use)
  | identityApply (u : Use) (captured : Bool)
  | healRead (h : Healing)
  | healWrite (h : Healing) (cred : Credential)
  | storeLoad (u : Use) (captured : Bool)
  | healLiveRead (u : Use)
  | healLiveWrite (u : Use) (cred : Credential)
  | activate (label : String)
  | addCheck (label : String)
  | addLock (label : String)
  | adoptInfo (label : String)
  | upsert (label : String) (row : Info)
  | rmCheck (label : String)
  | rmActive (label : String)
  | rmLock (label : String)
  | rmRemove (label : String)
  | rmForget (label : String)
  | gc (keep : Option ℕ)
  | unlock
  deriving DecidableEq

/-- What the world answers during one step: whether Claude runs, what the
organisation check is told, and the clock. -/
structure Inputs where
  claudeRunning : Bool
  org : Option String
  now : String

/-- Where a parked pair was healed, the command goes on. -/
def Healing.next : Healing → Pc
  | .again u => .reload u
  | .swap u captured => .storeLoad u captured
  | .adopt label row => .upsert label row

/-- `tree-matches-vault` -/
def treeMatchesVault (w : World) (dir : String) : Bool :=
  treeMatchesRegistry ((w.identity.live.map info).getD noInfo)
    (((w.identity.parked dir).map info).getD noInfo)

/-- One step of a command: its write, and where it goes on. -/
def Pc.next (store : Store) (i : Inputs) (w : World) : Pc → Effect × Pc
  | .idle => (.none, .idle)
  | .useCheck u =>
      if (w.identity.parked u.dir).isSome && (w.credential.parked u.dir).isSome then
        (.none, .useActive u)
      else (.none, .idle)
  | .useActive u =>
      if w.registry.active = some u.label then (.none, .useStore u)
      else (.none, .useRunning u w.registry.active false)
  | .useStore u =>
      if w.credential.live.isSome then (.none, .useCompare u)
      else (.none, .useRunning u (some u.label) false)
  | .useCompare u =>
      if treeMatchesVault w u.dir && !u.force then (.none, .healRead (.again u))
      else (.none, .useRunning u (some u.label) true)
  | .reload u =>
      match w.credential.parked u.dir with
      | some cred => (.loadCredential cred, .idle)
      | none => (.none, .idle)
  | .useRunning u active healOnly =>
      if !u.force && i.claudeRunning then (.none, .idle) else (.none, .useLock u active healOnly)
  | .useLock u active healOnly =>
      if w.locked then (.none, .idle) else (.lock, .useTree u active healOnly)
  | .useTree u active healOnly =>
      if w.credential.live.isSome && !healOnly then
        match active with
        | none => (.none, .unlock)
        | some active => (.none, .extract (.use u active))
      else (.none, .identityApply u false)
  | .extract j =>
      match w.identity.live with
      | none => (.none, .unlock)
      | some identity => (.none, .save j identity)
  | .save j identity =>
      match w.credential.live with
      | none => (.none, .unlock)
      | some cred => (.none, .verify j identity cred)
  | .verify j identity cred =>
      if verifyOrg identity cred i.org = .differs then
        match j with
        | .use u active => (.none, .stash u active identity cred)
        | .add _ => (.none, .unlock)
      else (.none, .commitIdentity j identity cred)
  | .commitIdentity j identity cred => (.parkIdentity j.into identity, .commitCredential j cred)
  | .commitCredential j cred =>
      (.parkCredential j.into cred,
        match j with
        | .use u active => .snapshot u active
        | .add label => .adoptInfo label)
  | .snapshot u active =>
      (.backup ⟨i.now ++ "-" ++ active, w.identity.parked active, w.credential.parked active⟩,
        .usePrune u)
  | .stash u active identity cred =>
      (.backup ⟨i.now ++ "-" ++ active ++ "-mismatch", some identity, some cred⟩, .usePrune u)
  | .usePrune u =>
      match u.keep with
      | none => (.none, .unlock)
      | some keep => (.prune keep, .identityApply u true)
  | .identityApply u captured =>
      (.applyIdentity (w.identity.parked u.dir), .healRead (.swap u captured))
  | .healRead h =>
      match w.identity.parked h.dir, w.credential.parked h.dir with
      | some identity, some cred =>
          if heal identity cred = cred then (.none, h.next)
          else (.none, .healWrite h (heal identity cred))
      | _, _ => (.none, h.next)
  | .healWrite h cred => (.parkCredential h.dir cred, h.next)
  | .storeLoad u _ =>
      match w.credential.parked u.dir with
      | some cred => (.loadCredential cred,
          if store = .file then .healLiveRead u else .activate u.label)
      | none => (.none, .unlock)
  | .healLiveRead u =>
      match w.identity.parked u.dir, w.credential.live with
      | some identity, some cred =>
          if heal identity cred = cred then (.none, .activate u.label)
          else (.none, .healLiveWrite u (heal identity cred))
      | _, _ => (.none, .activate u.label)
  | .healLiveWrite u cred => (.loadCredential cred, .activate u.label)
  | .activate label =>
      if (w.registry.accounts label).isSome then (.activate label, .unlock) else (.none, .unlock)
  | .addCheck label =>
      if plainLabel label && w.credential.live.isSome then (.none, .addLock label)
      else (.none, .idle)
  | .addLock label => if w.locked then (.none, .idle) else (.lock, .extract (.add label))
  | .adoptInfo label =>
      (.none, .healRead (.adopt label (((w.identity.parked label).map info).getD noInfo)))
  | .upsert label row => (.upsert label row, .unlock)
  | .rmCheck label =>
      if (w.identity.parked (dirOf label)).isSome || (w.credential.parked (dirOf label)).isSome then
        (.none, .rmActive label)
      else (.none, .idle)
  | .rmActive label =>
      if w.registry.active = some label then (.none, .idle) else (.none, .rmLock label)
  | .rmLock label => if w.locked then (.none, .idle) else (.lock, .rmRemove label)
  | .rmRemove label => (.remove (dirOf label), .rmForget label)
  | .rmForget label => (.forget label, .unlock)
  | .gc keep =>
      match keep with
      | none => (.none, .idle)
      | some keep => (.prune keep, .idle)
  | .unlock => (.unlock, .idle)

/-- The command has made the lock directory and not removed it. -/
def Pc.holdsLock : Pc → Bool
  | .idle | .useCheck _ | .useActive _ | .useStore _ | .useCompare _ | .reload _
  | .useRunning .. | .useLock .. | .addCheck _ | .addLock _ | .rmCheck _ | .rmActive _
  | .rmLock _ | .gc _ => false
  | .healRead (.again _) | .healWrite (.again _) _ => false
  | _ => true

inductive Command where
  | use (u : Use)
  | add (label : String)
  | rm (label : String)
  | gc (keep : Option ℕ)

def Command.entry : Command → Pc
  | .use u => .useCheck u
  | .add label => .addCheck label
  | .rm label => .rmCheck label
  | .gc keep => .gc keep

/-- The vault and its commands, each under way or idle. -/
structure Session where
  world : World
  procs : ℕ → Pc

inductive Event where
  | start (p : ℕ) (command : Command)
  | run (p : ℕ) (i : Inputs)
  /-- A step fails, and the trap removes the lock. -/
  | fail (p : ℕ)
  /-- Nothing is left to remove the lock. -/
  | kill (p : ℕ)
  | clearLock
  | login (identity : Identity) (cred : Credential)
  | refresh (cred : Credential)

def Session.set (s : Session) (p : ℕ) (pc : Pc) : Session :=
  { s with procs := Function.update s.procs p pc }

def Session.after (store : Store) (s : Session) : Event → Session
  | .start p command => s.set p command.entry
  | .run p i =>
      ⟨s.world.apply ((s.procs p).next store i s.world).1,
        Function.update s.procs p ((s.procs p).next store i s.world).2⟩
  | .fail p => s.set p (if (s.procs p).holdsLock then .unlock else .idle)
  | .kill p => s.set p .idle
  | .clearLock => { s with world := { s.world with locked := false } }
  | .login identity cred =>
      { s with
        world := { s.world with
          identity := s.world.identity.setLive (some identity)
          credential := s.world.credential.setLive (some cred) } }
  | .refresh cred =>
      { s with world := { s.world with credential := s.world.credential.setLive (some cred) } }

/-- The events that can happen. A command starts where none is under way, the
organisation check answers truthfully if it answers, a stale lock is one that no
command holds, and a login or a refresh leaves one account in the tree. -/
def Possible (accountOf : String → AccountId) (s : Session) : Event → Prop
  | .start p _ => s.procs p = .idle
  | .run p i => ∀ j identity cred, s.procs p = .verify j identity cred →
      i.org = none ∨ i.org = some (accountOf cred.accessToken).orgUuid
  | .fail _ | .kill _ => True
  | .clearLock => ∀ p, (s.procs p).holdsLock = false
  | .login identity cred => identity.account = accountOf cred.accessToken
  | .refresh cred => ∃ old, s.world.credential.live = some old ∧
      accountOf cred.accessToken = accountOf old.accessToken

/-! ## One command alone -/

/-- One step of a command on its world. -/
def turn (store : Store) (i : Inputs) (st : World × Pc) : World × Pc :=
  (st.1.apply (st.2.next store i st.1).1, (st.2.next store i st.1).2)

def turns (store : Store) (i : Inputs) (n : ℕ) (st : World × Pc) : World × Pc :=
  (turn store i)^[n] st

/-- A vault with one command under way at most. -/
def solo (st : World × Pc) : Session := ⟨st.1, Function.update (fun _ ↦ .idle) 0 st.2⟩

@[simp] theorem solo_procs {st : World × Pc} : (solo st).procs 0 = st.2 := by
  simp [solo]

theorem solo_procs_ne {st : World × Pc} {q : ℕ} (h : q ≠ 0) : (solo st).procs q = .idle := by
  simp [solo, h]

theorem solo_run {store : Store} {i : Inputs} {st : World × Pc} :
    (solo st).after store (.run 0 i) = solo (turn store i st) := by
  simp only [Session.after, solo_procs, turn]
  simp only [solo, Function.update_idem]

theorem solo_start {store : Store} {w : World} {command : Command} :
    (solo (w, .idle)).after store (.start 0 command) = solo (w, command.entry) := by
  simp only [Session.after, Session.set, solo, Function.update_idem]

theorem solo_fail {store : Store} {st : World × Pc} :
    (solo st).after store (.fail 0) =
      solo (st.1, if st.2.holdsLock then .unlock else .idle) := by
  simp only [Session.after, Session.set, solo_procs]
  simp only [solo, Function.update_idem]

theorem turns_succ {store : Store} {i : Inputs} {n : ℕ} {st : World × Pc} :
    turns store i (n + 1) st = turn store i (turns store i n st) :=
  Function.iterate_succ_apply' ..

end RemoteDevbox.Account
