import RemoteDevbox.Client.Bridges
import RemoteDevbox.Lib.Js.Value
import Mathlib.Logic.Function.Basic
import Mathlib.Tactic.Common

namespace RemoteDevbox.Client.MountLock

open Js
open Bridges (Observed)

/-!
# The lock of the mount lifecycle

One file names the process that may start and stop bridges. A command creates it, takes
over a file whose owner is gone, and unlinks its own when it is done.
-/

structure LockOwner where
  pid : ℤ
  identity : String
  token : String
  deriving DecidableEq

/-- The file: there is none, or what its text parses to, if it does. -/
abbrev LockFile := Option (Option Val)

def isLockOwner (value : Val) : Option LockOwner :=
  match value.get "pid", value.get "identity", value.get "token" with
  | .num (.fin pid), .str identity, .str token =>
      if pid.val.den = 1 ∧ 0 < pid.val.num ∧ pid.val.num ≤ 9007199254740991 ∧
          identity ≠ "" ∧ token ≠ "" then
        some ⟨pid.val.num, identity, token⟩
      else none
  | _, _, _ => none

/-- What `JSON.stringify(owner)` parses to. -/
def LockOwner.toVal (owner : LockOwner) : Val :=
  .obj [("pid", .num (.ofInt owner.pid)), ("identity", .str owner.identity),
    ("token", .str owner.token)]

/-- How far a command is; the number counts the attempts to create the file. -/
inductive Phase where
  | outside
  /-- About to look itself up. -/
  | asking
  | opening (attempt : ℕ)
  /-- It has created the file, which is still empty. -/
  | writing
  | reading (attempt : ℕ)
  | judging (attempt : ℕ) (existing : LockOwner)
  | unlinking (attempt : ℕ) (existing : LockOwner)
  /-- `acquireMountLock` has returned. -/
  | holding
  | releasing
  | removing
  /-- It has thrown, or it has released the lock. -/
  | ended
  /-- The process has exited, at whatever point. -/
  | gone

/-- The next file operation of a command, or its next look at a process; `ok` tells
whether the file operation succeeds where it can. -/
def turn (me : LockOwner) (answer : Observed) (ok : Bool) (file : LockFile) :
    Phase → LockFile × Phase
  | .asking =>
      match answer with
      | .seen identity => (file, if identity = "" then .ended else .opening 0)
      | _ => (file, .ended)
  | .opening attempt =>
      match file with
      | some _ => (file, if ok then .reading attempt else .ended)
      | none => if ok then (some none, .writing) else (none, .ended)
  | .writing => if ok then (some (some me.toVal), .holding) else (file, .ended)
  | .reading attempt =>
      match file with
      | some (some value) =>
          match isLockOwner value with
          | some existing => (file, if ok then .judging attempt existing else .ended)
          | none => (file, .ended)
      | _ => (file, .ended)
  | .judging attempt existing =>
      match answer with
      | .absent => (file, .unlinking attempt existing)
      | _ => (file, .ended)
  | .unlinking attempt _ =>
      (if ok then none else file, if attempt + 1 < 2 then .opening (attempt + 1) else .ended)
  | .holding => (file, .releasing)
  | .releasing =>
      match file with
      | some (some value) =>
          (file, if ok && (value.get "token").isStrLit me.token then .removing else .ended)
      | _ => (file, .ended)
  | .removing => (if ok then none else file, .ended)
  | phase => (file, phase)

/-! ## Any number of commands -/

/-- The commands that are ever started, and what each writes into the file. A pid may come
back, a token does not. -/
structure Commands (ι : Type) where
  owner : ι → LockOwner
  pid_pos : ∀ i, 0 < (owner i).pid
  pid_safe : ∀ i, (owner i).pid ≤ 9007199254740991
  identity_ne : ∀ i, (owner i).identity ≠ ""
  token_ne : ∀ i, (owner i).token ≠ ""
  token_inj : ∀ i j, (owner i).token = (owner j).token → i = j

structure State (ι : Type) where
  file : LockFile
  /-- The live processes, by pid. -/
  table : ℤ → Option String
  phase : ι → Phase

inductive Event (ι : Type) where
  | start (i : ι)
  | exit (i : ι)
  /-- Another process comes or goes. -/
  | other (pid : ℤ) (process : Option String)
  | turn (i : ι) (answer : Observed) (ok : Bool)

/-- The process exists. -/
def Phase.live : Phase → Prop
  | .outside | .gone => False
  | _ => True

/-- From the creation of the file until it is removed. -/
def Phase.busy : Phase → Prop
  | .writing | .holding | .releasing | .removing => True
  | _ => False

/-- The command counts on having the lock. -/
def Phase.holds : Phase → Prop
  | .holding | .releasing | .removing => True
  | _ => False

/-- A lookup may fail; what it finds is true. -/
def Honest (table : ℤ → Option String) (pid : ℤ) : Observed → Prop
  | .unknown => True
  | .absent => table pid = none
  | .seen identity => table pid = some identity

/-- The process that a command looks up, if any. -/
def Phase.asks (me : LockOwner) : Phase → Option ℤ
  | .asking => some me.pid
  | .judging _ existing => some existing.pid
  | _ => none

section Commands

variable {ι : Type} [DecidableEq ι]

def Next (commands : Commands ι) (s : State ι) : Event ι → State ι → Prop
  | .start i, s' => (s.phase i = .outside ∧ s.table (commands.owner i).pid = none) ∧
      s' = ⟨s.file, Function.update s.table (commands.owner i).pid (commands.owner i).identity,
        Function.update s.phase i .asking⟩
  | .exit i, s' => (s.phase i).live ∧
      s' = ⟨s.file, Function.update s.table (commands.owner i).pid none,
        Function.update s.phase i .gone⟩
  | .other pid process, s' => (∀ i, (s.phase i).live → (commands.owner i).pid ≠ pid) ∧
      s' = { s with table := Function.update s.table pid process }
  | .turn i answer ok, s' => ((s.phase i).live ∧
      ∀ pid, (s.phase i).asks (commands.owner i) = some pid → Honest s.table pid answer) ∧
      s' = ⟨(turn (commands.owner i) answer ok s.file (s.phase i)).1, s.table,
        Function.update s.phase i (turn (commands.owner i) answer ok s.file (s.phase i)).2⟩

/-- At first no command runs; a file that is there is none of theirs. -/
def mountLock (commands : Commands ι) : System (State ι) (Event ι) where
  start s := (∀ i, s.phase i = .outside) ∧
    ∀ value, s.file = some (some value) → ∀ i, value.get "token" ≠ .str (commands.owner i).token
  next s e s' := Next commands s e s'

/-- A stale file is unlinked while it is the one that was judged, or is gone. -/
def Judged (s : State ι) : Event ι → Prop
  | .turn i _ true => ∀ attempt existing, s.phase i = .unlinking attempt existing →
      s.file = none ∨ ∃ value, s.file = some (some value) ∧ isLockOwner value = some existing
  | _ => True

/-! ## The invariant -/

/-- An owner that a command read: if it is one of the commands, that has been started. -/
def Known (commands : Commands ι) (s : State ι) (existing : LockOwner) : Prop :=
  ∀ j, existing.token = (commands.owner j).token →
    existing = commands.owner j ∧ s.phase j ≠ .outside

structure Inv (commands : Commands ι) (s : State ι) : Prop where
  table : ∀ i, (s.phase i).live → s.table (commands.owner i).pid = some (commands.owner i).identity
  pids : ∀ i j, (s.phase i).live → (s.phase j).live →
    (commands.owner i).pid = (commands.owner j).pid → i = j
  file : ∀ value existing, s.file = some (some value) → isLockOwner value = some existing →
    Known commands s existing
  writes : ∀ i, s.phase i = .writing → s.file = some none
  holds : ∀ i, (s.phase i).holds → s.file = some (some (commands.owner i).toVal)
  single : ∀ i j, (s.phase i).busy → (s.phase j).busy → i = j
  judged : ∀ i attempt existing, s.phase i = .judging attempt existing → Known commands s existing
  stale : ∀ i attempt existing, s.phase i = .unlinking attempt existing →
    ∀ j, existing.token = (commands.owner j).token → s.phase j = .gone

omit [DecidableEq ι] in
theorem isLockOwner_toVal (commands : Commands ι) (i : ι) :
    isLockOwner (commands.owner i).toVal = some (commands.owner i) := by
  have hvalid : (1 : ℕ) = 1 ∧ 0 < (commands.owner i).pid ∧
      (commands.owner i).pid ≤ 9007199254740991 ∧ (commands.owner i).identity ≠ "" ∧
      (commands.owner i).token ≠ "" :=
    ⟨rfl, commands.pid_pos i, commands.pid_safe i, commands.identity_ne i, commands.token_ne i⟩
  exact if_pos hvalid

theorem token_of_isLockOwner {value : Val} {existing : LockOwner}
    (h : isLockOwner value = some existing) : value.get "token" = .str existing.token := by
  rw [isLockOwner] at h
  split at h
  · rename_i pid identity token hpid hidentity htoken
    split at h
    · obtain rfl := Option.some.inj h
      exact htoken
    · cases h
  · cases h

variable {commands : Commands ι} {s : State ι}

theorem busy_of_holds {phase : Phase} (h : phase.holds) : phase.busy := by
  cases phase with
  | holding | releasing | removing => trivial
  | outside | asking | opening | writing | reading | judging | unlinking | ended | gone =>
      exact h.elim

omit [DecidableEq ι] in
/-- Where there is no file, or another one, no command is at work. -/
theorem Inv.not_busy (h : Inv commands s) {i : ι} (hempty : s.file ≠ some none)
    (hown : s.file ≠ some (some (commands.owner i).toVal)) : ¬(s.phase i).busy := by
  intro hbusy
  cases hphase : s.phase i with
  | writing => exact hempty (h.writes i hphase)
  | holding | releasing | removing => exact hown (h.holds i (by rw [hphase]; trivial))
  | outside | asking | opening | reading | judging | unlinking | ended | gone =>
      rw [hphase] at hbusy
      exact hbusy

/-- One command moves on. -/
theorem Inv.update (h : Inv commands s) {i : ι} {file : LockFile} {phase : Phase}
    (hlive : (s.phase i).live) (hlive' : phase.live)
    (hfile : ∀ value existing, file = some (some value) → isLockOwner value = some existing →
      Known commands s existing)
    (hwrites : phase = .writing → file = some none)
    (hholds : phase.holds → file = some (some (commands.owner i).toVal))
    (hsingle : phase.busy → ∀ j, j ≠ i → ¬(s.phase j).busy)
    (hothers : ∀ j, j ≠ i → (s.phase j).busy → file = s.file)
    (hjudged : ∀ attempt existing, phase = .judging attempt existing → Known commands s existing)
    (hstale : ∀ attempt existing, phase = .unlinking attempt existing →
      ∀ j, existing.token = (commands.owner j).token → s.phase j = .gone) :
    Inv commands ⟨file, s.table, Function.update s.phase i phase⟩ := by
  have hat : ∀ j, j ≠ i → Function.update s.phase i phase j = s.phase j := fun j hj ↦
    Function.update_of_ne hj ..
  have hself : Function.update s.phase i phase i = phase := Function.update_self ..
  have hlives : ∀ j, (Function.update s.phase i phase j).live → (s.phase j).live := by
    intro j hj
    by_cases hji : j = i
    · exact hji ▸ hlive
    · rwa [hat j hji] at hj
  have hknown : ∀ existing, Known commands s existing →
      Known commands ⟨file, s.table, Function.update s.phase i phase⟩ existing := by
    intro existing hexisting j hj
    refine ⟨(hexisting j hj).1, ?_⟩
    by_cases hji : j = i
    · subst hji
      simp only [hself]
      rintro rfl
      exact hlive'
    · simp only [hat j hji]
      exact (hexisting j hj).2
  have hgone : ∀ j, s.phase j = .gone → Function.update s.phase i phase j = .gone := by
    intro j hj
    have hji : j ≠ i := by
      rintro rfl
      rw [hj] at hlive
      exact hlive
    rw [hat j hji, hj]
  refine ⟨fun j hj ↦ h.table j (hlives j hj),
    fun j k hj hk ↦ h.pids j k (hlives j hj) (hlives k hk),
    fun value existing hvalue hexisting ↦ hknown existing (hfile value existing hvalue hexisting),
    fun j hj ↦ ?_, fun j hj ↦ ?_, fun j k hj hk ↦ ?_, fun j attempt existing hj ↦ ?_,
    fun j attempt existing hj ↦ ?_⟩
  · by_cases hji : j = i
    · subst hji
      exact hwrites (hself ▸ hj)
    · simp only [hat j hji] at hj
      have hbusy : (s.phase j).busy := by
        rw [hj]
        trivial
      exact (hothers j hji hbusy).trans (h.writes j hj)
  · by_cases hji : j = i
    · subst hji
      exact hholds (hself ▸ hj)
    · simp only [hat j hji] at hj
      exact (hothers j hji (busy_of_holds hj)).trans (h.holds j hj)
  · by_cases hji : j = i
    · by_cases hki : k = i
      · exact hji.trans hki.symm
      · subst hji
        simp only [hself] at hj
        simp only [hat k hki] at hk
        exact absurd hk (hsingle hj k hki)
    · by_cases hki : k = i
      · subst hki
        simp only [hself] at hk
        simp only [hat j hji] at hj
        exact absurd hj (hsingle hk j hji)
      · simp only [hat j hji, hat k hki] at hj hk
        exact h.single j k hj hk
  · refine hknown existing ?_
    by_cases hji : j = i
    · subst hji
      exact hjudged attempt existing (hself ▸ hj)
    · simp only [hat j hji] at hj
      exact h.judged j attempt existing hj
  · intro k hk
    refine hgone k ?_
    by_cases hji : j = i
    · subst hji
      exact hstale attempt existing (hself ▸ hj) k hk
    · simp only [hat j hji] at hj
      exact h.stale j attempt existing hj k hk

/-- A step that leaves the file and asks for nothing new. -/
theorem Inv.still (h : Inv commands s) {i : ι} {phase : Phase} (hlive : (s.phase i).live)
    (hlive' : phase.live) (hbusy : ¬phase.busy)
    (hjudged : ∀ attempt existing, phase = .judging attempt existing → Known commands s existing)
    (hstale : ∀ attempt existing, phase = .unlinking attempt existing →
      ∀ j, existing.token = (commands.owner j).token → s.phase j = .gone) :
    Inv commands ⟨s.file, s.table, Function.update s.phase i phase⟩ := by
  refine h.update hlive hlive' h.file (fun hw ↦ ?_) (fun hh ↦ absurd (busy_of_holds hh) hbusy)
    (fun hb ↦ absurd hb hbusy) (fun _ _ _ ↦ rfl) hjudged hstale
  rw [hw] at hbusy
  exact absurd trivial hbusy

omit [DecidableEq ι] in
/-- Judged absent, an owner among the commands has exited. -/
theorem Inv.gone_of_absent (h : Inv commands s) {existing : LockOwner}
    (hknown : Known commands s existing) (habsent : s.table existing.pid = none) {j : ι}
    (hj : existing.token = (commands.owner j).token) : s.phase j = .gone := by
  obtain ⟨rfl, hstarted⟩ := hknown j hj
  have hlive : ¬(s.phase j).live := by
    intro hlive
    rw [h.table j hlive] at habsent
    cases habsent
  cases hphase : s.phase j with
  | outside => exact absurd hphase hstarted
  | gone => rfl
  | asking | opening | writing | reading | judging | unlinking | holding | releasing | removing
    | ended =>
      rw [hphase] at hlive
      exact absurd trivial hlive

/-- Unlinking what was judged takes the file from no one. -/
theorem Inv.unlink (h : Inv commands s) {i : ι} {attempt : ℕ} {existing : LockOwner}
    {phase : Phase} (hphase : s.phase i = .unlinking attempt existing)
    (hmeets : s.file = none ∨ ∃ value, s.file = some (some value) ∧ isLockOwner value = some existing)
    (hnext : phase = .opening (attempt + 1) ∨ phase = .ended) :
    Inv commands ⟨none, s.table, Function.update s.phase i phase⟩ := by
  have hnone : ∀ j, ¬(s.phase j).busy := by
    intro j hbusy
    have hempty : s.file ≠ some none := by
      intro hfile
      rcases hmeets with hmeets | ⟨value, hmeets, -⟩ <;> rw [hfile] at hmeets <;> cases hmeets
    refine h.not_busy hempty (fun hown ↦ ?_) hbusy
    rcases hmeets with hmeets | ⟨value, hmeets, hvalue⟩
    · rw [hown] at hmeets
      cases hmeets
    · rw [hown] at hmeets
      obtain rfl := Option.some.inj (Option.some.inj hmeets)
      rw [isLockOwner_toVal] at hvalue
      have hgone := h.stale i attempt existing hphase j (by rw [Option.some.inj hvalue])
      rw [hgone] at hbusy
      exact hbusy
  have hlive : (s.phase i).live := by
    rw [hphase]
    trivial
  rcases hnext with rfl | rfl
  all_goals
    exact h.update hlive trivial (fun _ _ hfile ↦ by cases hfile) (fun hw ↦ by cases hw) False.elim
      False.elim (fun j _ hj ↦ absurd hj (hnone j)) (fun _ _ hp ↦ by cases hp)
      (fun _ _ hp ↦ by cases hp)

theorem inv_turn (h : Inv commands s) {i : ι} {answer : Observed} {ok : Bool}
    (hmeets : Judged s (.turn i answer ok)) (hlive : (s.phase i).live)
    (hhonest : ∀ pid, (s.phase i).asks (commands.owner i) = some pid → Honest s.table pid answer) :
    Inv commands ⟨(turn (commands.owner i) answer ok s.file (s.phase i)).1, s.table,
      Function.update s.phase i (turn (commands.owner i) answer ok s.file (s.phase i)).2⟩ := by
  have hended : Inv commands ⟨s.file, s.table, Function.update s.phase i .ended⟩ :=
    h.still hlive trivial not_false (fun _ _ hp ↦ by cases hp) (fun _ _ hp ↦ by cases hp)
  have hopening : ∀ attempt,
      Inv commands ⟨s.file, s.table, Function.update s.phase i (.opening attempt)⟩ := fun _ ↦
    h.still hlive trivial not_false (fun _ _ hp ↦ by cases hp) (fun _ _ hp ↦ by cases hp)
  cases hphase : s.phase i with
  | outside | gone =>
      rw [hphase] at hlive
      exact hlive.elim
  | ended => exact hended
  | asking =>
      cases answer with
      | seen identity =>
          simp only [turn]
          split
          · exact hended
          · exact hopening 0
      | absent | unknown => exact hended
  | opening attempt =>
      simp only [turn]
      split
      · split
        · exact h.still hlive trivial not_false (fun _ _ hp ↦ by cases hp) (fun _ _ hp ↦ by cases hp)
        · exact hended
      · rename_i hfile
        split
        · have hnone : ∀ j, ¬(s.phase j).busy := fun j ↦ h.not_busy (by simp [hfile]) (by simp [hfile])
          exact h.update hlive trivial (fun _ _ hf ↦ by cases hf) (fun _ ↦ rfl) False.elim
            (fun _ j _ ↦ hnone j) (fun j _ hj ↦ absurd hj (hnone j)) (fun _ _ hp ↦ by cases hp)
            (fun _ _ hp ↦ by cases hp)
        · exact hfile ▸ hended
  | writing =>
      have hbusy : (s.phase i).busy := by
        rw [hphase]
        trivial
      simp only [turn]
      split
      · refine h.update hlive trivial (fun value existing hvalue hexisting ↦ ?_)
          (fun hw ↦ by cases hw) (fun _ ↦ rfl) (fun _ j hj hb ↦ hj (h.single j i hb hbusy))
          (fun j hj hb ↦ absurd (h.single j i hb hbusy) hj) (fun _ _ hp ↦ by cases hp)
          (fun _ _ hp ↦ by cases hp)
        obtain rfl := Option.some.inj (Option.some.inj hvalue)
        rw [isLockOwner_toVal] at hexisting
        obtain rfl := Option.some.inj hexisting
        intro j hj
        obtain rfl := commands.token_inj i j hj
        exact ⟨rfl, by simp [hphase]⟩
      · exact hended
  | reading attempt =>
      simp only [turn]
      split
      · rename_i value hfile
        split
        · rename_i existing hexisting
          split
          · refine h.still hlive trivial not_false (fun _ _ hp ↦ ?_) (fun _ _ hp ↦ by cases hp)
            obtain ⟨rfl, rfl⟩ := Phase.judging.inj hp
            exact h.file value _ hfile hexisting
          · exact hended
        · exact hended
      · exact hended
  | judging attempt existing =>
      cases answer with
      | seen identity => exact hended
      | unknown => exact hended
      | absent =>
          have habsent : s.table existing.pid = none := hhonest existing.pid (by rw [hphase]; rfl)
          refine h.still hlive trivial not_false (fun _ _ hp ↦ by cases hp) (fun _ _ hp j hj ↦ ?_)
          obtain ⟨rfl, rfl⟩ := Phase.unlinking.inj hp
          exact h.gone_of_absent (h.judged i _ _ hphase) habsent hj
  | unlinking attempt existing =>
      simp only [turn]
      cases ok with
      | true =>
          refine h.unlink hphase (hmeets attempt existing hphase) ?_
          split
          · exact .inl rfl
          · exact .inr rfl
      | false =>
          simp only [Bool.false_eq_true, if_false]
          split
          · exact hopening (attempt + 1)
          · exact hended
  | holding =>
      have hholds : (s.phase i).holds := by
        rw [hphase]
        trivial
      exact h.update hlive trivial h.file (fun hw ↦ by cases hw) (fun _ ↦ h.holds i hholds)
        (fun _ j hj hb ↦ hj (h.single j i hb (busy_of_holds hholds))) (fun _ _ _ ↦ rfl)
        (fun _ _ hp ↦ by cases hp) (fun _ _ hp ↦ by cases hp)
  | releasing =>
      have hholds : (s.phase i).holds := by
        rw [hphase]
        trivial
      simp only [turn]
      split
      · split
        · exact h.update hlive trivial h.file (fun hw ↦ by cases hw) (fun _ ↦ h.holds i hholds)
            (fun _ j hj hb ↦ hj (h.single j i hb (busy_of_holds hholds))) (fun _ _ _ ↦ rfl)
            (fun _ _ hp ↦ by cases hp) (fun _ _ hp ↦ by cases hp)
        · exact hended
      · exact hended
  | removing =>
      have hbusy : (s.phase i).busy := by
        rw [hphase]
        trivial
      simp only [turn]
      split
      · exact h.update hlive trivial (fun _ _ hf ↦ by cases hf) (fun hw ↦ by cases hw) False.elim
          False.elim (fun j hj hb ↦ absurd (h.single j i hb hbusy) hj) (fun _ _ hp ↦ by cases hp)
          (fun _ _ hp ↦ by cases hp)
      · exact hended

theorem inv_start (h : (mountLock commands).start s) : Inv commands s := by
  obtain ⟨houtside, hfile⟩ := h
  have hidle {P : Phase → Prop} (hP : ¬P .outside) (i : ι) (hi : P (s.phase i)) : False :=
    hP (houtside i ▸ hi)
  refine ⟨fun i hi ↦ (hidle not_false i hi).elim, fun i _ hi ↦ (hidle not_false i hi).elim, ?_,
    fun i hi ↦ ?_, fun i hi ↦ (hidle not_false i hi).elim,
    fun i _ hi ↦ (hidle not_false i hi).elim, fun i _ _ hi ↦ ?_, fun i _ _ hi ↦ ?_⟩
  · intro value existing hvalue hexisting j hj
    have htoken := token_of_isLockOwner hexisting
    rw [hj] at htoken
    exact absurd htoken (hfile value hvalue j)
  all_goals
    rw [houtside i] at hi
    cases hi

/-- Where a command comes or goes, the others and the file stay. -/
theorem Inv.replace (h : Inv commands s) {i : ι} {process : Option String} {phase : Phase}
    (hidle : ¬phase.busy) (hstarted : phase ≠ .outside)
    (hquiet : (∀ attempt existing, phase ≠ .judging attempt existing) ∧
      ∀ attempt existing, phase ≠ .unlinking attempt existing)
    (hgone : s.phase i = .gone → phase = .gone)
    (htable : phase.live → process = some (commands.owner i).identity)
    (hothers : ∀ j, j ≠ i → (s.phase j).live → (commands.owner j).pid ≠ (commands.owner i).pid) :
    Inv commands ⟨s.file, Function.update s.table (commands.owner i).pid process,
      Function.update s.phase i phase⟩ := by
  have hat : ∀ j, j ≠ i → Function.update s.phase i phase j = s.phase j := fun j hj ↦
    Function.update_of_ne hj ..
  have hself : Function.update s.phase i phase i = phase := Function.update_self ..
  have hknown : ∀ existing, Known commands s existing →
      Known commands ⟨s.file, Function.update s.table (commands.owner i).pid process,
        Function.update s.phase i phase⟩ existing := by
    intro existing hexisting j hj
    refine ⟨(hexisting j hj).1, ?_⟩
    by_cases hji : j = i
    · subst hji
      simpa only [hself] using hstarted
    · simp only [hat j hji]
      exact (hexisting j hj).2
  have hbusy : ∀ j, (Function.update s.phase i phase j).busy → j ≠ i ∧ (s.phase j).busy := by
    intro j hj
    by_cases hji : j = i
    · subst hji
      rw [hself] at hj
      exact absurd hj hidle
    · rw [hat j hji] at hj
      exact ⟨hji, hj⟩
  refine ⟨fun j hj ↦ ?_, fun j k hj hk hpid ↦ ?_,
    fun value existing hvalue hexisting ↦ hknown existing (h.file value existing hvalue hexisting),
    fun j hj ↦ ?_, fun j hj ↦ ?_,
    fun j k hj hk ↦ h.single j k (hbusy j hj).2 (hbusy k hk).2, fun j attempt existing hj ↦ ?_,
    fun j attempt existing hj k hk ↦ ?_⟩
  · by_cases hji : j = i
    · subst hji
      simp only [hself] at hj
      simp only [Function.update_self]
      exact htable hj
    · simp only [hat j hji] at hj
      simp only [Function.update_of_ne (hothers j hji hj)]
      exact h.table j hj
  · by_cases hji : j = i
    · by_cases hki : k = i
      · exact hji.trans hki.symm
      · subst hji
        simp only [hat k hki] at hk
        exact absurd hpid.symm (hothers k hki hk)
    · simp only [hat j hji] at hj
      by_cases hki : k = i
      · subst hki
        exact absurd hpid (hothers j hji hj)
      · simp only [hat k hki] at hk
        exact h.pids j k hj hk hpid
  · obtain ⟨hji, -⟩ := hbusy j (by simp only at hj; rw [hj]; trivial)
    simp only [hat j hji] at hj
    exact h.writes j hj
  · obtain ⟨hji, -⟩ := hbusy j (busy_of_holds hj)
    simp only [hat j hji] at hj
    exact h.holds j hj
  · refine hknown existing ?_
    by_cases hji : j = i
    · subst hji
      simp only [hself] at hj
      exact absurd hj (hquiet.1 attempt existing)
    · simp only [hat j hji] at hj
      exact h.judged j attempt existing hj
  · have hstale : s.phase k = .gone := by
      by_cases hji : j = i
      · subst hji
        simp only [hself] at hj
        exact absurd hj (hquiet.2 attempt existing)
      · simp only [hat j hji] at hj
        exact h.stale j attempt existing hj k hk
    by_cases hki : k = i
    · subst hki
      exact hself.trans (hgone hstale)
    · exact (hat k hki).trans hstale

theorem inv_next (h : Inv commands s) {e : Event ι} {s' : State ι} (hmeets : Judged s e)
    (hnext : (mountLock commands).next s e s') : Inv commands s' := by
  cases e with
  | start i =>
      obtain ⟨⟨hphase, hfree⟩, rfl⟩ := hnext
      refine h.replace not_false (by simp) ⟨by simp, by simp⟩ (fun hi ↦ ?_) (fun _ ↦ rfl)
        fun j _ hj hpid ↦ ?_
      · rw [hphase] at hi
        cases hi
      · rw [← hpid, h.table j hj] at hfree
        cases hfree
  | exit i =>
      obtain ⟨hlive, rfl⟩ := hnext
      exact h.replace not_false (by simp) ⟨by simp, by simp⟩ (fun _ ↦ rfl) False.elim
        fun j hji hj hpid ↦ hji (h.pids j i hj hlive hpid)
  | other pid process =>
      obtain ⟨hother, rfl⟩ := hnext
      refine ⟨fun i hi ↦ ?_, h.pids, h.file, h.writes, h.holds, h.single, h.judged, h.stale⟩
      simp only [Function.update_of_ne (hother i hi)]
      exact h.table i hi
  | turn i answer ok =>
      obtain ⟨⟨hlive, hhonest⟩, rfl⟩ := hnext
      exact inv_turn h hmeets hlive hhonest

/-- However many commands run, whenever they exit and whatever pids they get: where no
stale file is replaced between the judgement and its unlinking, one command at most holds
the lock, and the file is its own until it removes it. -/
theorem mountLock_exclusive (hs : (mountLock commands).Reaches Judged s) :
    (∀ i j, (s.phase i).holds → (s.phase j).holds → i = j) ∧
      ∀ i, (s.phase i).holds → s.file = some (some (commands.owner i).toVal) := by
  have hinv : Inv commands s :=
    hs.invariant (fun _ hstart ↦ inv_start hstart) fun _ _ _ h hmeets hnext ↦ inv_next h hmeets hnext
  exact ⟨fun i j hi hj ↦ hinv.single i j (busy_of_holds hi) (busy_of_holds hj), hinv.holds⟩

/-! ## What a command finds that is alone -/

/-- The state in which a command is so far and the others are as before. -/
def alone (s : State ι) (table : ℤ → Option String) (i : ι) (file : LockFile) (phase : Phase) :
    State ι :=
  ⟨file, table, Function.update s.phase i phase⟩

/-- The file names a process that does not exist. -/
def Abandoned (table : ℤ → Option String) (file : LockFile) (existing : LockOwner) : Prop :=
  ∃ value, file = some (some value) ∧ isLockOwner value = some existing ∧
    table existing.pid = none

/-- There is a file, and it names no one. -/
def Unreadable (file : LockFile) : Prop :=
  file ≠ none ∧ ∀ value, file = some (some value) → isLockOwner value = none

section Alone

variable {table : ℤ → Option String} {i : ι} {file : LockFile}

theorem alone_turn {phase phase' : Phase} {file' : LockFile} (answer : Observed) {s' : State ι}
    (hpath : (mountLock commands).Path Judged s' (alone s table i file phase))
    (hlive : phase.live)
    (hhonest : ∀ pid, phase.asks (commands.owner i) = some pid → Honest table pid answer)
    (hmeets : ∀ attempt existing, phase = .unlinking attempt existing →
      file = none ∨ ∃ value, file = some (some value) ∧ isLockOwner value = some existing)
    (hturn : turn (commands.owner i) answer true file phase = (file', phase')) :
    (mountLock commands).Path Judged s' (alone s table i file' phase') := by
  have hphase : (alone s table i file phase).phase i = phase := Function.update_self ..
  refine hpath.snoc (e := .turn i answer true) (fun attempt existing h ↦ ?_) ⟨⟨?_, ?_⟩, ?_⟩
  · exact hmeets attempt existing (hphase ▸ h)
  · rwa [hphase]
  · rwa [hphase]
  · rw [hphase]
    simp only [alone, Function.update_idem]
    rw [hturn]

/-- A turn at which neither a process is looked up nor a file unlinked. -/
theorem alone_file {phase phase' : Phase} {file' : LockFile} {s' : State ι}
    (hturn : turn (commands.owner i) .unknown true file phase = (file', phase'))
    (hpath : (mountLock commands).Path Judged s' (alone s table i file phase))
    (hlive : phase.live) (hasks : phase.asks (commands.owner i) = none)
    (hunlinks : ∀ attempt existing, phase ≠ .unlinking attempt existing) :
    (mountLock commands).Path Judged s' (alone s table i file' phase') := by
  refine alone_turn .unknown hpath hlive (fun pid hpid ↦ ?_) (fun attempt existing h ↦ ?_) hturn
  · rw [hasks] at hpid
    cases hpid
  · exact absurd h (hunlinks attempt existing)

/-- From a free place to the lock. -/
theorem creates {s' : State ι} {attempt : ℕ}
    (hpath : (mountLock commands).Path Judged s' (alone s table i none (.opening attempt))) :
    (mountLock commands).Path Judged s'
      (alone s table i (some (some (commands.owner i).toVal)) .holding) := by
  have hopened : turn (commands.owner i) .unknown true none (.opening attempt) =
      (some none, .writing) := rfl
  have hwritten : turn (commands.owner i) .unknown true (some none) .writing =
      (some (some (commands.owner i).toVal), .holding) := rfl
  have hwriting := alone_file hopened hpath trivial rfl (by simp)
  exact alone_file hwritten hwriting trivial rfl (by simp)

/-- A command that finds the file free, or its owner gone, gets the lock. -/
theorem takes_over (hself : table (commands.owner i).pid = some (commands.owner i).identity)
    (hfile : file = none ∨ ∃ existing, Abandoned table file existing) :
    (mountLock commands).Path Judged (alone s table i file .asking)
      (alone s table i (some (some (commands.owner i).toVal)) .holding) := by
  have hasked : turn (commands.owner i) (.seen (commands.owner i).identity) true file .asking =
      (file, .opening 0) := by
    simp [turn, commands.identity_ne i]
  have hfirst : (mountLock commands).Path Judged (alone s table i file .asking)
      (alone s table i file (.opening 0)) := by
    refine alone_turn (.seen (commands.owner i).identity) .refl trivial (fun pid hpid ↦ ?_)
      (fun _ _ h ↦ by cases h) hasked
    obtain rfl := Option.some.inj hpid
    exact hself
  rcases hfile with rfl | ⟨existing, value, rfl, hvalue, habsent⟩
  · exact creates hfirst
  · have hread : turn (commands.owner i) .unknown true (some (some value)) (.reading 0) =
        (some (some value), .judging 0 existing) := by
      simp only [turn, hvalue, if_true]
    have hfound : turn (commands.owner i) .unknown true (some (some value)) (.opening 0) =
        (some (some value), .reading 0) := rfl
    have hjudged : turn (commands.owner i) .absent true (some (some value)) (.judging 0 existing) =
        (some (some value), .unlinking 0 existing) := rfl
    have hunlinked : turn (commands.owner i) .unknown true (some (some value))
        (.unlinking 0 existing) = (none, .opening 1) := rfl
    have hreading := alone_file hfound hfirst trivial rfl (by simp)
    have hjudging := alone_file hread hreading trivial rfl (by simp)
    have hunlinking : (mountLock commands).Path Judged (alone s table i (some (some value)) .asking)
        (alone s table i (some (some value)) (.unlinking 0 existing)) := by
      refine alone_turn .absent hjudging trivial (fun pid hpid ↦ ?_) (fun _ _ h ↦ by cases h) hjudged
      obtain rfl := Option.some.inj hpid
      exact habsent
    refine creates (alone_turn .unknown hunlinking trivial (fun _ h ↦ by cases h)
      (fun attempt existing' h ↦ ?_) hunlinked)
    obtain ⟨-, rfl⟩ := Phase.unlinking.inj h
    exact .inr ⟨value, rfl, hvalue⟩

end Alone

/-- Neither the file nor a judgement of it has been in the hands of the command. -/
def Phase.waits : Phase → Prop
  | .outside | .asking | .opening _ | .reading _ | .ended | .gone => True
  | _ => False

theorem turn_waits {me : LockOwner} {answer : Observed} {ok : Bool} {file : LockFile}
    {phase : Phase} (hfile : Unreadable file) (h : phase.waits) :
    (turn me answer ok file phase).1 = file ∧ (turn me answer ok file phase).2.waits := by
  obtain ⟨hne, hnone⟩ := hfile
  cases phase with
  | outside | ended | gone => exact ⟨rfl, trivial⟩
  | asking =>
      cases answer with
      | seen identity =>
          simp only [turn, true_and]
          split <;> trivial
      | absent | unknown => exact ⟨rfl, trivial⟩
  | opening attempt =>
      obtain ⟨content, rfl⟩ := Option.ne_none_iff_exists'.mp hne
      simp only [turn, true_and]
      split <;> trivial
  | reading attempt =>
      obtain ⟨content, rfl⟩ := Option.ne_none_iff_exists'.mp hne
      cases content with
      | none => exact ⟨rfl, trivial⟩
      | some value =>
          simp only [turn, hnone value rfl, true_and]
          trivial
  | writing | judging | unlinking | holding | releasing | removing => exact h.elim

/-- A file that names no one stays, and no command gets the lock again. -/
theorem stuck {s' : State ι} (hfile : Unreadable s.file) (hwaits : ∀ i, (s.phase i).waits)
    (hpath : (mountLock commands).Path (fun _ _ ↦ True) s s') :
    s'.file = s.file ∧ ∀ i, (s'.phase i).waits := by
  refine hpath.preserves (I := fun s' ↦ s'.file = s.file ∧ ∀ i, (s'.phase i).waits) ?_ ⟨rfl, hwaits⟩
  rintro t e t' ⟨hsame, hphases⟩ - hnext
  have hupdate : ∀ i phase, phase.waits → ∀ j, (Function.update t.phase i phase j).waits := by
    intro i phase hphase j
    by_cases hji : j = i
    · subst hji
      rwa [Function.update_self]
    · rw [Function.update_of_ne hji]
      exact hphases j
  cases e with
  | start i =>
      obtain ⟨-, rfl⟩ := hnext
      exact ⟨hsame, hupdate i .asking trivial⟩
  | exit i =>
      obtain ⟨-, rfl⟩ := hnext
      exact ⟨hsame, hupdate i .gone trivial⟩
  | other pid process =>
      obtain ⟨-, rfl⟩ := hnext
      exact ⟨hsame, hphases⟩
  | turn i answer ok =>
      obtain ⟨-, rfl⟩ := hnext
      have hunreadable : Unreadable t.file := hsame ▸ hfile
      exact ⟨(turn_waits hunreadable (hphases i)).1.trans hsame,
        hupdate i _ (turn_waits hunreadable (hphases i)).2⟩

/-- Between two commands: a file that no one is named in, such as a command leaves that exits
between creating and writing it, blocks all later ones; one that is free or whose owner is
gone does not, but for a command that got the owner's pid. -/
theorem left_behind (hquiet : ∀ i, ¬(s.phase i).live) :
    (Unreadable s.file → ∀ s', (mountLock commands).Path (fun _ _ ↦ True) s s' →
      s'.file = s.file ∧ ∀ i, ¬(s'.phase i).holds) ∧
      ∀ i, s.phase i = .outside → s.table (commands.owner i).pid = none →
        (s.file = none ∨ ∃ existing, Abandoned s.table s.file existing ∧
          existing.pid ≠ (commands.owner i).pid) →
        ∃ s', (mountLock commands).Path Judged s s' ∧ (s'.phase i).holds := by
  constructor
  · intro hfile s' hpath
    have hwaits : ∀ i, (s.phase i).waits := by
      intro i
      cases hphase : s.phase i with
      | outside | gone => trivial
      | asking | opening | writing | reading | judging | unlinking | holding | releasing
        | removing | ended =>
          exact absurd (by rw [hphase]; trivial) (hquiet i)
    obtain ⟨hsame, hphases⟩ := stuck hfile hwaits hpath
    refine ⟨hsame, fun i hholds ↦ ?_⟩
    have hwaiting := hphases i
    cases hphase : s'.phase i with
    | holding | releasing | removing =>
        rw [hphase] at hwaiting
        exact hwaiting
    | outside | asking | opening | writing | reading | judging | unlinking | ended | gone =>
        rw [hphase] at hholds
        exact hholds
  · intro i hphase hfree hfile
    let table := Function.update s.table (commands.owner i).pid (commands.owner i).identity
    have hstart : (mountLock commands).Path Judged s (alone s table i s.file .asking) :=
      System.Path.snoc .refl (e := .start i) trivial ⟨⟨hphase, hfree⟩, rfl⟩
    have habandoned : s.file = none ∨ ∃ existing, Abandoned table s.file existing := by
      refine hfile.imp_right ?_
      rintro ⟨existing, ⟨value, hvalue, hexisting, habsent⟩, hpid⟩
      exact ⟨existing, value, hvalue, hexisting, (Function.update_of_ne hpid ..).trans habsent⟩
    refine ⟨_, Relation.ReflTransGen.trans hstart
      (takes_over (Function.update_self ..) habandoned), ?_⟩
    simp only [alone, Function.update_self]
    trivial

end Commands

/-- Two mounts that start at once. -/
def mounts : Commands Bool where
  owner up := if up then ⟨70, "Fri devbox mount up", "b7"⟩ else ⟨71, "Fri devbox mount down", "c9"⟩
  pid_pos := by decide
  pid_safe := by decide
  identity_ne := by decide
  token_ne := by decide
  token_inj := by decide

/-- A crash left the file behind. -/
def crashed : State Bool :=
  ⟨some (some (LockOwner.toVal ⟨44, "Thu devbox mount up", "a1"⟩)), fun _ ↦ none, fun _ ↦ .outside⟩

theorem crashed_start : (mountLock mounts).start crashed := by
  refine ⟨fun _ ↦ rfl, fun value hvalue i ↦ ?_⟩
  obtain rfl := Option.some.inj (Option.some.inj hvalue)
  cases i <;> simp [LockOwner.toVal, Val.get, Js.Fields.lookup, mounts]

theorem crashed_abandoned :
    Abandoned crashed.table crashed.file ⟨44, "Thu devbox mount up", "a1"⟩ :=
  ⟨_, rfl, by decide, rfl⟩

theorem crashed_quiet (i : Bool) : ¬(crashed.phase i).live := not_false

theorem crashed_recovers :
    ∃ s', (mountLock mounts).Path Judged crashed s' ∧ (s'.phase true).holds :=
  (left_behind crashed_quiet).2 true rfl rfl (.inr ⟨_, crashed_abandoned, by decide⟩)

/-- The second mount has started. -/
def oneStarted : State Bool :=
  ⟨crashed.file, Function.update crashed.table 71 (some "Fri devbox mount down"),
    Function.update crashed.phase false .asking⟩

def bothTable : ℤ → Option String :=
  Function.update oneStarted.table 70 (some "Fri devbox mount up")

/-- Both have, and the first has taken the file over. -/
def tookOver : State Bool :=
  alone oneStarted bothTable true (some (some (mounts.owner true).toVal)) .holding

theorem tookOver_reached : (mountLock mounts).Reaches Judged tookOver := by
  have hone : (mountLock mounts).Reaches Judged oneStarted :=
    System.Reaches.snoc (.of_start crashed_start) (e := .start false) trivial ⟨⟨rfl, rfl⟩, rfl⟩
  have hboth : (mountLock mounts).Reaches Judged
      (alone oneStarted bothTable true crashed.file .asking) :=
    hone.snoc (e := .start true) trivial ⟨⟨rfl, rfl⟩, rfl⟩
  have hgone : Abandoned bothTable crashed.file ⟨44, "Thu devbox mount up", "a1"⟩ :=
    ⟨_, rfl, by decide, rfl⟩
  obtain ⟨s₀, hs₀, hpath⟩ := hboth
  exact ⟨s₀, hs₀, hpath.trans (takes_over rfl (.inr ⟨_, hgone⟩))⟩

theorem tookOver_exclusive : (tookOver.phase true).holds ∧
    (∀ i j, (tookOver.phase i).holds → (tookOver.phase j).holds → i = j) ∧
      ∀ i, (tookOver.phase i).holds → tookOver.file = some (some (mounts.owner i).toVal) :=
  ⟨trivial, mountLock_exclusive tookOver_reached⟩

end RemoteDevbox.Client.MountLock
