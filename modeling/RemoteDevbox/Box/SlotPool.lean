import RemoteDevbox.Lib.Runs
import Mathlib.Data.Finset.Card
import Mathlib.Logic.Function.Basic
import Mathlib.Tactic.Common

namespace RemoteDevbox.Box.SlotPool

/-!
# The slots of heavy jobs

A slot is a lock file. The gate takes one by `flock` on a descriptor that the real command
inherits, unless a process above it has a slot file open whose lock is held. The locks belong
to open files, which processes share after a fork; one is gone with its last descriptor.
-/

/-- Where a process is. Slots and open files are numbers. -/
inductive Phase (ι : Type) where
  | absent
  /-- Any program but the gate. -/
  | foreign
  /-- `slot_held_by_ancestor` comes to a process. -/
  | looking (pid : ι)
  | probing (pid : ι) (targets : List ℕ)
  /-- It has opened a slot file that the process has open. -/
  | probe (pid : ι) (targets : List ℕ) (fd : ℕ)
  /-- Its own lock succeeded. -/
  | unlocking (pid : ι) (targets : List ℕ) (fd : ℕ)
  | closing (pid : ι) (targets : List ℕ) (fd : ℕ)
  /-- `try_take_slot`, for the first time or in the waiting loop. -/
  | trying (again : Bool) (index : ℕ)
  | opened (again : Bool) (index : ℕ) (fd : ℕ)
  | waiting
  /-- The real command, under the slot that the gate took for it. -/
  | running (fd : ℕ)
  /-- The real command, under a slot that is held already. -/
  | exempt
  | ended
  deriving DecidableEq

structure State (ι : Type) where
  phase : ι → Phase ι
  parent : ι → Option ι
  fds : ι → Finset ℕ
  /-- The slot file behind an open file. -/
  slot : ℕ → ℕ
  /-- The open file that locked the slot. -/
  lock : ℕ → Option ℕ
  /-- The open files so far. -/
  made : ℕ

/-- A program that does as it likes. -/
def Phase.program {ι : Type} : Phase ι → Prop
  | .foreign | .running _ | .exempt => True
  | _ => False

def Phase.alive {ι : Type} : Phase ι → Prop
  | .absent | .ended => False
  | _ => True

/-- The open file that the gate made for itself, or took the slot with. -/
def Phase.own {ι : Type} : Phase ι → Option ℕ
  | .probe _ _ fd | .unlocking _ _ fd | .closing _ _ fd | .opened _ _ fd | .running fd => some fd
  | _ => none

section Operations

variable {ι : Type} [DecidableEq ι]

/-- A lock is held while its open file is. -/
def Held (s : State ι) (index fd : ℕ) : Prop := s.lock index = some fd ∧ ∃ p, fd ∈ s.fds p

/-- `flock -n` succeeds. -/
def Available (s : State ι) (fd : ℕ) : Prop := ∀ fd', Held s (s.slot fd) fd' → fd' = fd

def State.goto (p : ι) (phase : Phase ι) (s : State ι) : State ι :=
  { s with phase := Function.update s.phase p phase }

/-- `exec {fd}>>` a slot file. -/
def State.openSlot (p : ι) (index : ℕ) (s : State ι) : State ι :=
  { s with
    fds := Function.update s.fds p (insert s.made (s.fds p))
    slot := Function.update s.slot s.made index
    made := s.made + 1 }

def State.close (p : ι) (fd : ℕ) (s : State ι) : State ι :=
  { s with fds := Function.update s.fds p ((s.fds p).erase fd) }

def State.take (fd : ℕ) (s : State ι) : State ι :=
  { s with lock := Function.update s.lock (s.slot fd) (some fd) }

/-- `flock -u`. -/
def State.unlock (fd : ℕ) (s : State ι) : State ι :=
  if s.lock (s.slot fd) = some fd then
    { s with lock := Function.update s.lock (s.slot fd) none }
  else s

def State.fork (p c : ι) (s : State ι) : State ι :=
  { s with
    phase := Function.update s.phase c .foreign
    parent := Function.update s.parent c (some p)
    fds := Function.update s.fds c (s.fds p) }

def State.exit (p : ι) (s : State ι) : State ι :=
  { s with
    phase := Function.update s.phase p .ended
    fds := Function.update s.fds p ∅ }

/-! ## The steps -/

inductive Event (ι : Type) where
  | fork (p c : ι)
  | exit (p : ι)
  /-- The parent has ended. -/
  | reparent (p : ι) (parent : Option ι)
  /-- A program opens a slot file, locks one, unlocks it, closes it. -/
  | opens (p : ι) (index : ℕ)
  | locks (p : ι) (fd : ℕ)
  | unlocks (p : ι) (fd : ℕ)
  | closes (p : ι) (fd : ℕ)
  /-- A program becomes the gate of a heavy command; inside the scope of a job it
  does not look for a slot. -/
  | gate (p : ι) (nested : Bool)
  /-- The next operation of the gate: what `find` lists, and whether the wait is over. -/
  | turn (p : ι) (listed : List ℕ) (late : Bool)

/-- The next operation of a gate with `slots` slots. -/
def Turn (slots : ℕ) (s : State ι) (p : ι) (listed : List ℕ) (late : Bool) (s' : State ι) :
    Phase ι → Prop
  | .looking pid =>
      (∀ index ∈ listed, ∃ fd ∈ s.fds pid, s.slot fd = index) ∧
          s' = s.goto p (.probing pid listed) ∨
        ¬(s.phase pid).alive ∧ s' = s.goto p (.trying false 0)
  | .probing pid (index :: targets) =>
      s' = (s.openSlot p index).goto p (.probe pid targets s.made)
  | .probing pid [] =>
      match s.parent pid with
      | some parent => s' = s.goto p (.looking parent)
      | none => s' = s.goto p (.trying false 0)
  | .probe pid targets fd =>
      Available s fd ∧ s' = (s.take fd).goto p (.unlocking pid targets fd) ∨
        ¬Available s fd ∧ s' = (s.close p fd).goto p .exempt
  | .unlocking pid targets fd => s' = (s.unlock fd).goto p (.closing pid targets fd)
  | .closing pid targets fd => s' = (s.close p fd).goto p (.probing pid targets)
  | .trying again index =>
      if index < slots then s' = (s.openSlot p index).goto p (.opened again index s.made)
      else s' = s.goto p (if again then .waiting else .trying true 0)
  | .opened again index fd =>
      Available s fd ∧ s' = (s.take fd).goto p (.running fd) ∨
        ¬Available s fd ∧ s' = (s.close p fd).goto p (.trying again (index + 1))
  | .waiting => if late then s' = s.exit p else s' = s.goto p (.trying true 0)
  | _ => False

def Next (slots : ℕ) (s : State ι) : Event ι → State ι → Prop
  | .fork p c, s' => ((s.phase p).program ∧ s.phase c = .absent) ∧ s' = s.fork p c
  | .exit p, s' => (s.phase p).alive ∧ s' = s.exit p
  | .reparent p parent, s' => (∀ q, s.parent p = some q → s.phase q = .ended) ∧
      s' = { s with parent := Function.update s.parent p parent }
  | .opens p index, s' => (s.phase p).program ∧ s' = s.openSlot p index
  | .locks p fd, s' => ((s.phase p).program ∧ fd ∈ s.fds p ∧ Available s fd) ∧ s' = s.take fd
  | .unlocks p fd, s' => ((s.phase p).program ∧ fd ∈ s.fds p) ∧ s' = s.unlock fd
  | .closes p fd, s' => (s.phase p).program ∧ s' = s.close p fd
  | .gate p nested, s' => (s.phase p).program ∧
      s' = s.goto p (if nested then .exempt else .looking p)
  | .turn p listed late, s' => Turn slots s p listed late s' (s.phase p)

/-- At first no gate runs, and no real command under one. -/
def pool (slots : ℕ) : System (State ι) (Event ι) where
  start s := (∀ p, s.phase p = .absent ∨ s.phase p = .foreign) ∧
    (∀ p, ∀ fd ∈ s.fds p, fd < s.made) ∧ ∀ index fd, s.lock index = some fd → fd < s.made
  next := Next slots

/-- A command that took a slot does not close its descriptor, and no one unlocks it. -/
def Keeps (s : State ι) : Event ι → Prop
  | .closes p fd => s.phase p ≠ .running fd
  | .unlocks _ fd => ∀ q, s.phase q ≠ .running fd
  | _ => True

/-! ## The bound -/

structure Inv (slots : ℕ) (s : State ι) : Prop where
  made : ∀ p fd, (s.phase p).own = some fd → fd < s.made
  single : ∀ p q fd, (s.phase p).own = some fd → (s.phase q).own = some fd → p = q
  opened : ∀ p again index fd, s.phase p = .opened again index fd → fd ∈ s.fds p ∧ s.slot fd < slots
  running : ∀ p fd, s.phase p = .running fd →
    fd ∈ s.fds p ∧ s.slot fd < slots ∧ s.lock (s.slot fd) = some fd

variable {slots : ℕ} {s : State ι} {p : ι} {fd : ℕ}

theorem goto_phase (phase : Phase ι) (q : ι) :
    (s.goto p phase).phase q = if q = p then phase else s.phase q :=
  Function.update_apply ..

/-- One process moves on; an open file that it calls its own is no one else's. -/
theorem Inv.goto (h : Inv slots s) {phase : Phase ι}
    (hown : ∀ fd, phase.own = some fd → fd < s.made ∧ ∀ q, q ≠ p → (s.phase q).own ≠ some fd)
    (hopened : ∀ again index fd, phase = .opened again index fd → fd ∈ s.fds p ∧ s.slot fd < slots)
    (hrunning : ∀ fd, phase = .running fd →
      fd ∈ s.fds p ∧ s.slot fd < slots ∧ s.lock (s.slot fd) = some fd) :
    Inv slots (s.goto p phase) where
  made q fd hq := by
    rw [goto_phase] at hq
    split at hq
    · exact (hown fd hq).1
    · exact h.made q fd hq
  single q r fd hq hr := by
    rw [goto_phase] at hq hr
    split at hq
    next hqp =>
      split at hr
      next hrp => exact hqp.trans hrp.symm
      next hrp => exact absurd hr ((hown fd hq).2 r hrp)
    next hqp =>
      split at hr
      next => exact absurd hq ((hown fd hr).2 q hqp)
      next => exact h.single q r fd hq hr
  opened q again index fd hq := by
    rw [goto_phase] at hq
    split at hq
    next hqp =>
      subst hqp
      exact hopened again index fd hq
    next => exact h.opened q again index fd hq
  running q fd hq := by
    rw [goto_phase] at hq
    split at hq
    next hqp =>
      subst hqp
      exact hrunning fd hq
    next => exact h.running q fd hq

/-- To a phase in which it calls no open file its own. -/
theorem Inv.goto_free (h : Inv slots s) {phase : Phase ι} (hown : phase.own = none) :
    Inv slots (s.goto p phase) := by
  refine h.goto (fun fd hfd ↦ ?_) (fun again index fd hphase ↦ ?_) fun fd hphase ↦ ?_
  · exact absurd (hown.symm.trans hfd) nofun
  · subst hphase
    exact absurd hown nofun
  · subst hphase
    exact absurd hown nofun

theorem Inv.openSlot (h : Inv slots s) (index : ℕ) : Inv slots (s.openSlot p index) := by
  have hslot : ∀ q fd, (s.phase q).own = some fd →
      Function.update s.slot s.made index fd = s.slot fd :=
    fun q fd hq ↦ Function.update_of_ne (h.made q fd hq).ne ..
  have hfds : ∀ q fd, fd ∈ s.fds q →
      fd ∈ Function.update s.fds p (insert s.made (s.fds p)) q := by
    intro q fd hq
    rw [Function.update_apply]
    split
    next hqp =>
      subst hqp
      exact Finset.mem_insert_of_mem hq
    next => exact hq
  refine ⟨fun q fd hq ↦ Nat.lt_succ_of_lt (h.made q fd hq), h.single, ?_, ?_⟩
  · intro q again i fd hq
    have hown : (s.phase q).own = some fd := congrArg Phase.own hq
    obtain ⟨hmem, hlt⟩ := h.opened q again i fd hq
    exact ⟨hfds q fd hmem, (hslot q fd hown).trans_lt hlt⟩
  · intro q fd hq
    have hown : (s.phase q).own = some fd := congrArg Phase.own hq
    obtain ⟨hmem, hlt, hlock⟩ := h.running q fd hq
    refine ⟨hfds q fd hmem, (hslot q fd hown).trans_lt hlt, ?_⟩
    exact (congrArg s.lock (hslot q fd hown)).trans hlock

theorem Inv.close (h : Inv slots s) (hfd : (s.phase p).own ≠ some fd) :
    Inv slots (s.close p fd) := by
  have hfds : ∀ q fd', (s.phase q).own = some fd' → fd' ∈ s.fds q →
      fd' ∈ Function.update s.fds p ((s.fds p).erase fd) q := by
    intro q fd' hq hmem
    rw [Function.update_apply]
    split
    next hqp =>
      subst hqp
      refine Finset.mem_erase.mpr ⟨?_, hmem⟩
      rintro rfl
      exact hfd hq
    next => exact hmem
  refine ⟨h.made, h.single, fun q again i fd' hq ↦ ?_, fun q fd' hq ↦ ?_⟩
  · obtain ⟨hmem, hlt⟩ := h.opened q again i fd' hq
    exact ⟨hfds q fd' (congrArg Phase.own hq) hmem, hlt⟩
  · obtain ⟨hmem, hlt, hlock⟩ := h.running q fd' hq
    exact ⟨hfds q fd' (congrArg Phase.own hq) hmem, hlt, hlock⟩

omit [DecidableEq ι] in
/-- A lock is taken only where the commands that run do not hold another. -/
theorem Inv.take (h : Inv slots s) (hfree : Available s fd) : Inv slots (s.take fd) := by
  refine ⟨h.made, h.single, h.opened, fun q fd' hq ↦ ?_⟩
  obtain ⟨hmem, hlt, hlock⟩ := h.running q fd' hq
  refine ⟨hmem, hlt, ?_⟩
  by_cases hslot : s.slot fd' = s.slot fd
  · have hsame : fd' = fd := hfree fd' ⟨hslot ▸ hlock, q, hmem⟩
    subst hsame
    exact Function.update_self ..
  · exact (Function.update_of_ne hslot ..).trans hlock

omit [DecidableEq ι] in
theorem Inv.unlock (h : Inv slots s) (hfd : ∀ q, s.phase q ≠ .running fd) :
    Inv slots (s.unlock fd) := by
  rw [State.unlock]
  split
  next hheld =>
    refine ⟨h.made, h.single, h.opened, fun q fd' hq ↦ ?_⟩
    obtain ⟨hmem, hlt, hlock⟩ := h.running q fd' hq
    refine ⟨hmem, hlt, ?_⟩
    have hslot : s.slot fd' ≠ s.slot fd := by
      intro hslot
      have hsame : fd' = fd := Option.some.inj (hlock.symm.trans (hslot ▸ hheld))
      exact hfd q (hsame ▸ hq)
    exact (Function.update_of_ne hslot ..).trans hlock
  next => exact h

/-- A process that runs no gate is given other descriptors. -/
theorem Inv.replace (h : Inv slots s) {phase : Phase ι} (fds : Finset ℕ) (parent : ι → Option ι)
    (hown : phase.own = none) :
    Inv slots { s with
      phase := Function.update s.phase p phase
      parent := parent
      fds := Function.update s.fds p fds } := by
  have hmoved : Inv slots (s.goto p phase) := h.goto_free hown
  have hfds : ∀ q fd, ((s.goto p phase).phase q).own = some fd →
      Function.update s.fds p fds q = s.fds q := by
    intro q fd hq
    refine Function.update_of_ne ?_ ..
    rintro rfl
    rw [goto_phase, if_pos rfl, hown] at hq
    cases hq
  refine ⟨hmoved.made, hmoved.single, fun q again i fd hq ↦ ?_, fun q fd hq ↦ ?_⟩
  · obtain ⟨hmem, hlt⟩ := hmoved.opened q again i fd hq
    exact ⟨(congrArg (fd ∈ ·) (hfds q fd (congrArg Phase.own hq))).mpr hmem, hlt⟩
  · obtain ⟨hmem, hlt, hlock⟩ := hmoved.running q fd hq
    exact ⟨(congrArg (fd ∈ ·) (hfds q fd (congrArg Phase.own hq))).mpr hmem, hlt, hlock⟩

theorem Inv.exit (h : Inv slots s) : Inv slots (s.exit p) := h.replace ∅ s.parent rfl

theorem Inv.fork (h : Inv slots s) (c : ι) : Inv slots (s.fork p c) :=
  h.replace (s.fds p) (Function.update s.parent c (some p)) rfl

/-- It opens a slot file of its own. -/
theorem Inv.openOwn (h : Inv slots s) {phase : Phase ι} {index : ℕ} (hown : phase.own = some s.made)
    (hindex : ∀ again i fd, phase = .opened again i fd → index < slots)
    (hrunning : ∀ fd, phase ≠ .running fd) : Inv slots ((s.openSlot p index).goto p phase) := by
  refine (h.openSlot index).goto (fun fd hfd ↦ ?_) (fun again i fd hphase ↦ ?_)
    fun fd hphase ↦ absurd hphase (hrunning fd)
  · obtain rfl : s.made = fd := Option.some.inj (hown.symm.trans hfd)
    exact ⟨Nat.lt_succ_self _, fun q _ hq ↦ (h.made q s.made hq).false⟩
  · obtain rfl : s.made = fd := by
      subst hphase
      exact (Option.some.inj hown).symm
    have hslot : (s.openSlot p index).slot s.made = index := Function.update_self ..
    refine ⟨?_, hslot.trans_lt (hindex again i s.made hphase)⟩
    exact (congrArg (s.made ∈ ·) (Function.update_self ..)).mpr (Finset.mem_insert_self ..)

/-- It goes on with the same open file. -/
theorem Inv.keepOwn (h : Inv slots s) {phase : Phase ι} (hown : phase.own = some fd)
    (hbefore : (s.phase p).own = some fd)
    (hopened : ∀ again index fd, phase ≠ .opened again index fd)
    (hrunning : ∀ fd, phase = .running fd →
      fd ∈ s.fds p ∧ s.slot fd < slots ∧ s.lock (s.slot fd) = some fd) :
    Inv slots (s.goto p phase) := by
  refine h.goto (fun fd' hfd' ↦ ?_) (fun again index fd' hphase ↦ ?_) hrunning
  · obtain rfl : fd = fd' := Option.some.inj (hown.symm.trans hfd')
    exact ⟨h.made p fd hbefore, fun q hqp hq ↦ hqp (h.single q p fd hq hbefore)⟩
  · exact absurd hphase (hopened again index fd')

/-- It is done with its open file. -/
theorem Inv.goto_close (h : Inv slots s) {phase : Phase ι} (hown : phase.own = none) :
    Inv slots ((s.close p fd).goto p phase) := by
  have hclosed : Inv slots ((s.goto p phase).close p fd) := by
    refine (h.goto_free hown).close ?_
    rw [goto_phase, if_pos rfl, hown]
    nofun
  exact hclosed

omit [DecidableEq ι] in
theorem unlock_phase : (s.unlock fd).phase = s.phase := by
  rw [State.unlock]
  split <;> rfl

theorem Inv.turn (h : Inv slots s) {listed : List ℕ} {late : Bool} {s' : State ι}
    (hturn : Turn slots s p listed late s' (s.phase p)) : Inv slots s' := by
  cases hphase : s.phase p with
  | looking pid =>
      rw [hphase] at hturn
      rcases hturn with ⟨-, rfl⟩ | ⟨-, rfl⟩
      · exact h.goto_free rfl
      · exact h.goto_free rfl
  | probing pid targets =>
      rw [hphase] at hturn
      cases targets with
      | nil =>
          rw [Turn] at hturn
          split at hturn
          · exact hturn ▸ h.goto_free rfl
          · exact hturn ▸ h.goto_free rfl
      | cons index targets => exact hturn ▸ h.openOwn rfl nofun nofun
  | probe pid targets fd =>
      have hown : (s.phase p).own = some fd := congrArg Phase.own hphase
      rw [hphase] at hturn
      rcases hturn with ⟨hfree, rfl⟩ | ⟨-, rfl⟩
      · exact (h.take hfree).keepOwn rfl hown nofun nofun
      · exact h.goto_close rfl
  | unlocking pid targets fd =>
      have hown : (s.phase p).own = some fd := congrArg Phase.own hphase
      have hother : ∀ q, s.phase q ≠ .running fd := by
        intro q hq
        obtain rfl : q = p := h.single q p fd (congrArg Phase.own hq) hown
        cases hq.symm.trans hphase
      rw [hphase] at hturn
      refine hturn ▸ (h.unlock hother).keepOwn rfl ?_ nofun nofun
      rw [unlock_phase]
      exact hown
  | closing pid targets fd =>
      rw [hphase] at hturn
      exact hturn ▸ h.goto_close rfl
  | trying again index =>
      rw [hphase, Turn] at hturn
      split at hturn
      next hindex => exact hturn ▸ h.openOwn rfl (fun _ _ _ _ ↦ hindex) nofun
      next =>
        cases again with
        | false => exact hturn ▸ h.goto_free rfl
        | true => exact hturn ▸ h.goto_free rfl
  | opened again index fd =>
      have hown : (s.phase p).own = some fd := congrArg Phase.own hphase
      obtain ⟨hmem, hlt⟩ := h.opened p again index fd hphase
      rw [hphase] at hturn
      rcases hturn with ⟨hfree, rfl⟩ | ⟨-, rfl⟩
      · refine (h.take hfree).keepOwn rfl hown nofun fun fd' hfd' ↦ ?_
        cases hfd'
        exact ⟨hmem, hlt, Function.update_self ..⟩
      · exact h.goto_close rfl
  | waiting =>
      rw [hphase, Turn] at hturn
      split at hturn
      · exact hturn ▸ h.exit
      · exact hturn ▸ h.goto_free rfl
  | absent | foreign | running | exempt | ended =>
      rw [hphase] at hturn
      exact hturn.elim

theorem Inv.next (h : Inv slots s) {e : Event ι} {s' : State ι} (hkeeps : Keeps s e)
    (hnext : Next slots s e s') : Inv slots s' := by
  cases e with
  | fork p c => exact hnext.2 ▸ h.fork c
  | exit p => exact hnext.2 ▸ h.exit
  | reparent p parent => exact hnext.2 ▸ ⟨h.made, h.single, h.opened, h.running⟩
  | opens p index => exact hnext.2 ▸ h.openSlot index
  | locks p fd => exact hnext.2 ▸ h.take hnext.1.2.2
  | unlocks p fd => exact hnext.2 ▸ h.unlock hkeeps
  | closes p fd =>
      refine hnext.2 ▸ h.close fun hown ↦ ?_
      cases hphase : s.phase p with
      | running fd' =>
          rw [hphase] at hown
          cases hown
          exact hkeeps hphase
      | foreign | exempt =>
          rw [hphase] at hown
          cases hown
      | absent | looking | probing | probe | unlocking | closing | trying | opened | waiting | ended =>
          exact absurd hnext.1 (by rw [hphase]; exact id)
  | gate p nested =>
      cases nested with
      | false => exact hnext.2 ▸ h.goto_free rfl
      | true => exact hnext.2 ▸ h.goto_free rfl
  | turn p listed late => exact h.turn hnext

theorem inv_start (hs : (pool slots).start s) : Inv slots s := by
  have hown : ∀ p, (s.phase p).own = none := by
    intro p
    rcases hs.1 p with hphase | hphase
    · exact congrArg Phase.own hphase
    · exact congrArg Phase.own hphase
  refine ⟨fun p fd hp ↦ ?_, fun p q fd hp ↦ ?_, fun p again index fd hp ↦ ?_, fun p fd hp ↦ ?_⟩
  · exact absurd ((hown p).symm.trans hp) nofun
  · exact absurd ((hown p).symm.trans hp) nofun
  · exact absurd ((hown p).symm.trans (congrArg Phase.own hp)) nofun
  · exact absurd ((hown p).symm.trans (congrArg Phase.own hp)) nofun

/-- The commands that took a slot hold the locks of different slots, so at most as many run
as there are slots. -/
theorem pool_bound (h : (pool slots).Reaches Keeps s) :
    (∀ p fd, s.phase p = .running fd → s.slot fd < slots ∧ Held s (s.slot fd) fd) ∧
      (∀ p q fd fd', s.phase p = .running fd → s.phase q = .running fd' →
        s.slot fd = s.slot fd' → p = q) ∧
      ∀ ps : Finset ι, (∀ p ∈ ps, ∃ fd, s.phase p = .running fd) → ps.card ≤ slots := by
  have hinv : Inv slots s :=
    h.invariant (fun _ hs ↦ inv_start hs) fun _ _ _ hs hkeeps hnext ↦ hs.next hkeeps hnext
  have hdiffer : ∀ p q fd fd', s.phase p = .running fd → s.phase q = .running fd' →
      s.slot fd = s.slot fd' → p = q := by
    intro p q fd fd' hp hq hslot
    obtain ⟨-, -, hlock⟩ := hinv.running p fd hp
    obtain ⟨-, -, hlock'⟩ := hinv.running q fd' hq
    obtain rfl : fd = fd' := by
      rw [hslot] at hlock
      exact Option.some.inj (hlock.symm.trans hlock')
    exact hinv.single p q fd (congrArg Phase.own hp) (congrArg Phase.own hq)
  refine ⟨fun p fd hp ↦ ?_, hdiffer, fun ps hps ↦ ?_⟩
  · obtain ⟨hmem, hlt, hlock⟩ := hinv.running p fd hp
    exact ⟨hlt, hlock, p, hmem⟩
  · choose! fd hfd using hps
    have hmaps : Set.MapsTo (fun p ↦ s.slot (fd p)) ps (Finset.range slots) := fun p hp ↦
      Finset.mem_coe.mpr (Finset.mem_range.mpr (hinv.running p (fd p) (hfd p hp)).2.1)
    have hinj : Set.InjOn (fun p ↦ s.slot (fd p)) ps := fun p hp q hq hslot ↦
      hdiffer p q (fd p) (fd q) (hfd p hp) (hfd q hq) hslot
    calc ps.card
      _ ≤ (Finset.range slots).card := Finset.card_le_card_of_injOn _ hmaps hinj
      _ = slots := Finset.card_range slots

end Operations

/-- A program and a child of it, before either comes to the gate. -/
def family : State Bool where
  phase _ := .foreign
  parent p := if p then none else some true
  fds _ := ∅
  slot _ := 0
  lock _ := none
  made := 0

/-- The parent takes the only slot, and no second command does. -/
theorem family_bound : ∃ s : State Bool, (pool 1).Reaches Keeps s ∧ s.phase true = .running 0 ∧
    ∀ ps : Finset Bool, (∀ p ∈ ps, ∃ fd, s.phase p = .running fd) → ps.card ≤ 1 := by
  have hstart : (pool 1).Reaches Keeps family :=
    .of_start ⟨fun _ ↦ .inr rfl, fun _ _ hfd ↦ absurd hfd (Finset.notMem_empty _), nofun⟩
  have hlooking := hstart.snoc (e := Event.gate true false) trivial ⟨trivial, rfl⟩
  have hprobing := hlooking.snoc (e := Event.turn true [] false) trivial (.inl ⟨nofun, rfl⟩)
  have htrying := hprobing.snoc (e := Event.turn true [] false) trivial rfl
  have hopened := htrying.snoc (e := Event.turn true [] false) trivial rfl
  have hrunning := hopened.snoc (e := Event.turn true [] false) trivial (.inl ⟨nofun, rfl⟩)
  exact ⟨_, hrunning, rfl, (pool_bound hrunning).2.2⟩

section Nested

variable {ι : Type} [DecidableEq ι] {slots : ℕ} {s : State ι} {p : ι} {fd : ℕ}

/-! ## A job under a job never waits -/

/-- The gate waits for a slot, or is about to take one. -/
def Phase.queues : Phase ι → Prop
  | .trying _ _ | .opened _ _ _ | .waiting => True
  | _ => False

/-- `find` lists every slot file that is open, the processes of `cs` stay what they are to each
other, and the descriptor `d` of `q` stays open and locked. -/
def Undisturbed (cs : Set ι) (q : ι) (d : ℕ) (s : State ι) : Event ι → Prop
  | .exit p => p ∉ cs
  | .reparent p _ => p ∉ cs
  | .unlocks _ fd => fd ≠ d
  | .closes p fd => ¬(p = q ∧ fd = d)
  | .turn p listed _ => ∀ pid, s.phase p = .looking pid → ∀ fd ∈ s.fds pid, s.slot fd ∈ listed
  | _ => True

/-- Where the search of a gate under `q` may be: it has not passed `q` without the slot file
`index` ahead of it. -/
def Walking (cs : Set ι) (q : ι) (index : ℕ) (s : State ι) : Phase ι → Prop
  | .looking pid => pid ∈ cs
  | .probing pid targets | .unlocking pid targets _ | .closing pid targets _ =>
      pid ∈ cs ∧ (pid = q → index ∈ targets)
  | .probe pid targets fd => pid ∈ cs ∧ fd < s.made ∧ (pid = q → index ∈ targets ∨ s.slot fd = index)
  | .trying _ _ | .opened _ _ _ | .waiting => False
  | _ => True

/-- The processes of `cs` lead up to `q`, which has a slot file open whose lock is held. -/
structure Under (cs : Set ι) (q : ι) (d : ℕ) (s : State ι) : Prop where
  top : q ∈ cs
  up : ∀ p ∈ cs, p ≠ q → ∃ parent ∈ cs, s.parent p = some parent
  alive : ∀ p ∈ cs, (s.phase p).alive
  mem : d ∈ s.fds q
  lock : s.lock (s.slot d) = some d
  made : d < s.made
  /-- No gate is still at work with it. -/
  settled : ∀ p, (s.phase p).own = some d → s.phase p = .running d
  walking : ∀ p ∈ cs, Walking cs q (s.slot d) s (s.phase p)

variable {cs : Set ι} {q : ι} {d : ℕ}

omit [DecidableEq ι] in
theorem Under.held (h : Under cs q d s) : Held s (s.slot d) d := ⟨h.lock, q, h.mem⟩

omit [DecidableEq ι] in
/-- No one else can lock the slot. -/
theorem Under.eq_of_available (h : Under cs q d s) (hfree : Available s fd)
    (hslot : s.slot fd = s.slot d) : d = fd :=
  hfree d (hslot ▸ h.held)

theorem Under.goto (h : Under cs q d s) {phase : Phase ι} (halive : p ∈ cs → phase.alive)
    (hown : phase.own = some d → phase = .running d)
    (hwalking : p ∈ cs → Walking cs q (s.slot d) s phase) : Under cs q d (s.goto p phase) where
  top := h.top
  up := h.up
  alive c hc := by
    rw [goto_phase]
    split
    next hcp => exact halive (hcp ▸ hc)
    next => exact h.alive c hc
  mem := h.mem
  lock := h.lock
  made := h.made
  settled c hc := by
    rw [goto_phase] at hc ⊢
    split at hc
    next hcp =>
      rw [if_pos hcp]
      exact hown hc
    next hcp =>
      rw [if_neg hcp]
      exact h.settled c hc
  walking c hc := by
    rw [goto_phase]
    split
    next hcp => exact hwalking (hcp ▸ hc)
    next => exact h.walking c hc

theorem Under.openSlot (h : Under cs q d s) (index : ℕ) : Under cs q d (s.openSlot p index) := by
  have hslot : ∀ fd, fd < s.made → Function.update s.slot s.made index fd = s.slot fd :=
    fun fd hfd ↦ Function.update_of_ne hfd.ne ..
  have hd : (s.openSlot p index).slot d = s.slot d := hslot d h.made
  refine ⟨h.top, h.up, h.alive, ?_, ?_, Nat.lt_succ_of_lt h.made, h.settled, fun c hc ↦ ?_⟩
  · have hmem : d ∈ Function.update s.fds p (insert s.made (s.fds p)) q := by
      rw [Function.update_apply]
      split
      next hqp =>
        subst hqp
        exact Finset.mem_insert_of_mem h.mem
      next => exact h.mem
    exact hmem
  · exact (congrArg s.lock hd).trans h.lock
  · have hwalking := h.walking c hc
    have hphase : (s.openSlot p index).phase c = s.phase c := rfl
    rw [hd, hphase]
    cases hat : s.phase c with
    | probe pid targets fd =>
        rw [hat] at hwalking
        obtain ⟨hpid, hfd, hahead⟩ := hwalking
        refine ⟨hpid, Nat.lt_succ_of_lt hfd, fun hq ↦ ?_⟩
        exact (hahead hq).imp_right fun hsame ↦ (hslot fd hfd).trans hsame
    | absent | foreign | looking | probing | unlocking | closing | trying | opened | waiting
    | running | exempt | ended =>
        rw [hat] at hwalking
        exact hwalking

theorem Under.close (h : Under cs q d s) (hfd : ¬(p = q ∧ fd = d)) :
    Under cs q d (s.close p fd) := by
  have hmem : d ∈ Function.update s.fds p ((s.fds p).erase fd) q := by
    rw [Function.update_apply]
    split
    next hqp =>
      subst hqp
      exact Finset.mem_erase.mpr ⟨fun hd ↦ hfd ⟨rfl, hd.symm⟩, h.mem⟩
    next => exact h.mem
  exact ⟨h.top, h.up, h.alive, hmem, h.lock, h.made, h.settled, h.walking⟩

omit [DecidableEq ι] in
theorem Under.take (h : Under cs q d s) (hfree : Available s fd) : Under cs q d (s.take fd) := by
  have hlock : Function.update s.lock (s.slot fd) (some fd) (s.slot d) = some d := by
    by_cases hslot : s.slot fd = s.slot d
    · rw [h.eq_of_available hfree hslot]
      exact Function.update_self ..
    · exact (Function.update_of_ne (Ne.symm hslot) ..).trans h.lock
  exact ⟨h.top, h.up, h.alive, h.mem, hlock, h.made, h.settled, h.walking⟩

omit [DecidableEq ι] in
theorem Under.unlock (h : Under cs q d s) (hfd : fd ≠ d) : Under cs q d (s.unlock fd) := by
  rw [State.unlock]
  split
  next hheld =>
    have hslot : s.slot d ≠ s.slot fd := by
      intro hslot
      exact hfd (Option.some.inj (hheld.symm.trans (hslot ▸ h.lock)))
    have hlock : Function.update s.lock (s.slot fd) none (s.slot d) = some d :=
      (Function.update_of_ne hslot ..).trans h.lock
    exact ⟨h.top, h.up, h.alive, h.mem, hlock, h.made, h.settled, h.walking⟩
  next => exact h

/-- A process that is not among them is replaced. -/
theorem Under.replace (h : Under cs q d s) {phase : Phase ι} (fds : Finset ℕ) (parent : Option ι)
    (hp : p ∉ cs) (hown : phase.own = none) :
    Under cs q d { s with
      phase := Function.update s.phase p phase
      parent := Function.update s.parent p parent
      fds := Function.update s.fds p fds } := by
  have hne : ∀ c ∈ cs, c ≠ p := fun c hc hcp ↦ hp (hcp ▸ hc)
  have hmoved : Under cs q d (s.goto p phase) :=
    h.goto (fun hc ↦ absurd hc hp) (fun hd ↦ absurd (hown.symm.trans hd) nofun)
      fun hc ↦ absurd hc hp
  have hmem : d ∈ Function.update s.fds p fds q := by
    rw [Function.update_of_ne (hne q h.top)]
    exact h.mem
  refine ⟨h.top, fun c hc hcq ↦ ?_, hmoved.alive, hmem, h.lock, h.made, hmoved.settled,
    hmoved.walking⟩
  obtain ⟨above, habove, hparent⟩ := h.up c hc hcq
  exact ⟨above, habove, (Function.update_of_ne (hne c hc) ..).trans hparent⟩

theorem Under.exit (h : Under cs q d s) (hp : p ∉ cs) : Under cs q d (s.exit p) := by
  have hexit : Under cs q d { s.exit p with parent := Function.update s.parent p (s.parent p) } :=
    h.replace ∅ (s.parent p) hp rfl
  rw [Function.update_eq_self] at hexit
  exact hexit

theorem goto_unlock (phase : Phase ι) :
    (s.unlock fd).goto p phase = (s.goto p phase).unlock fd := by
  rw [State.unlock]
  split
  next hheld => exact (if_pos hheld).symm
  next hheld => exact (if_neg hheld).symm

theorem Under.turn (h : Under cs q d s) {listed : List ℕ} {late : Bool} {s' : State ι}
    (hlisted : ∀ pid, s.phase p = .looking pid → ∀ fd ∈ s.fds pid, s.slot fd ∈ listed)
    (hturn : Turn slots s p listed late s' (s.phase p)) : Under cs q d s' := by
  have hwalking : p ∈ cs → Walking cs q (s.slot d) s (s.phase p) := h.walking p
  -- What the gate opened for itself is not the descriptor of `q`.
  have hsettled : ∀ fd, (s.phase p).own = some fd → (∀ fd, s.phase p ≠ .running fd) → fd ≠ d := by
    rintro fd hown hphase rfl
    exact hphase fd (h.settled p hown)
  cases hphase : s.phase p with
  | looking pid =>
      rw [hphase] at hturn hwalking
      rcases hturn with ⟨-, rfl⟩ | ⟨hended, rfl⟩
      · refine h.goto (fun _ ↦ trivial) nofun fun hp ↦ ⟨hwalking hp, fun hpid ↦ ?_⟩
        subst hpid
        exact hlisted pid hphase d h.mem
      · exact h.goto (fun _ ↦ trivial) nofun fun hp ↦ hended (h.alive pid (hwalking hp))
  | probing pid targets =>
      rw [hphase] at hturn hwalking
      cases targets with
      | nil =>
          have hparent : p ∈ cs → ∃ parent ∈ cs, s.parent pid = some parent := by
            intro hp
            obtain ⟨hpid, hlast⟩ := hwalking hp
            exact h.up pid hpid fun hq ↦ List.not_mem_nil (hlast hq)
          rw [Turn] at hturn
          split at hturn
          next parent hsome =>
            refine hturn ▸ h.goto (fun _ ↦ trivial) nofun fun hp ↦ ?_
            obtain ⟨parent', hmem, hsome'⟩ := hparent hp
            obtain rfl : parent = parent' := Option.some.inj (hsome.symm.trans hsome')
            exact hmem
          next hnone =>
            refine hturn ▸ h.goto (fun _ ↦ trivial) nofun fun hp ↦ ?_
            obtain ⟨parent', -, hsome'⟩ := hparent hp
            exact Option.some_ne_none parent' (hsome'.symm.trans hnone)
      | cons index targets =>
          have hd : (s.openSlot p index).slot d = s.slot d := Function.update_of_ne h.made.ne ..
          refine hturn ▸ (h.openSlot index).goto (fun _ ↦ trivial) (fun hown ↦ ?_) fun hp ↦ ?_
          · exact absurd (Option.some.inj hown) h.made.ne'
          · obtain ⟨hpid, hahead⟩ := hwalking hp
            refine ⟨hpid, Nat.lt_succ_self _, fun hq ↦ ?_⟩
            rw [hd]
            rcases List.mem_cons.mp (hahead hq) with hsame | hlater
            · exact .inr ((Function.update_self ..).trans hsame.symm)
            · exact .inl hlater
  | probe pid targets fd =>
      have hfd : fd ≠ d := hsettled fd (congrArg Phase.own hphase) (by rw [hphase]; nofun)
      rw [hphase] at hturn hwalking
      rcases hturn with ⟨hfree, rfl⟩ | ⟨-, rfl⟩
      · refine (h.take hfree).goto (fun _ ↦ trivial) (fun hown ↦ ?_) fun hp ↦ ?_
        · exact absurd (Option.some.inj hown) hfd
        · obtain ⟨hpid, -, hahead⟩ := hwalking hp
          refine ⟨hpid, fun hq ↦ (hahead hq).resolve_right fun hslot ↦ ?_⟩
          exact hfd (h.eq_of_available hfree hslot).symm
      · exact (h.close fun hsame ↦ hfd hsame.2).goto (fun _ ↦ trivial) nofun fun _ ↦ trivial
  | unlocking pid targets fd =>
      have hfd : fd ≠ d := hsettled fd (congrArg Phase.own hphase) (by rw [hphase]; nofun)
      rw [hphase] at hturn hwalking
      have hmoved : Under cs q d (s.goto p (.closing pid targets fd)) :=
        h.goto (fun _ ↦ trivial) (fun hown ↦ absurd (Option.some.inj hown) hfd) hwalking
      rw [Turn, goto_unlock] at hturn
      exact hturn ▸ hmoved.unlock hfd
  | closing pid targets fd =>
      have hfd : fd ≠ d := hsettled fd (congrArg Phase.own hphase) (by rw [hphase]; nofun)
      rw [hphase] at hturn hwalking
      exact hturn ▸ (h.close fun hsame ↦ hfd hsame.2).goto (fun _ ↦ trivial) nofun hwalking
  | trying again index =>
      rw [hphase] at hturn hwalking
      rw [Turn] at hturn
      split at hturn
      · exact hturn ▸ (h.openSlot index).goto (fun _ ↦ trivial)
          (fun hown ↦ absurd (Option.some.inj hown) h.made.ne') hwalking
      · refine hturn ▸ h.goto (fun _ ↦ ?_) ?_ fun hp ↦ (hwalking hp).elim
        · cases again <;> trivial
        · cases again <;> nofun
  | opened again index fd =>
      have hfd : fd ≠ d := hsettled fd (congrArg Phase.own hphase) (by rw [hphase]; nofun)
      rw [hphase] at hturn hwalking
      rcases hturn with ⟨hfree, rfl⟩ | ⟨-, rfl⟩
      · exact (h.take hfree).goto (fun _ ↦ trivial)
          (fun hown ↦ absurd (Option.some.inj hown) hfd) fun _ ↦ trivial
      · exact (h.close fun hsame ↦ hfd hsame.2).goto (fun _ ↦ trivial) nofun hwalking
  | waiting =>
      rw [hphase] at hturn hwalking
      rw [Turn] at hturn
      split at hturn
      · exact hturn ▸ h.exit hwalking
      · exact hturn ▸ h.goto (fun _ ↦ trivial) nofun hwalking
  | absent | foreign | running | exempt | ended =>
      rw [hphase] at hturn
      exact hturn.elim

theorem Under.next (h : Under cs q d s) {e : Event ι} {s' : State ι}
    (hquiet : Undisturbed cs q d s e) (hnext : Next slots s e s') : Under cs q d s' := by
  cases e with
  | fork p c =>
      have hc : c ∉ cs := by
        intro hc
        have halive := h.alive c hc
        rw [hnext.1.2] at halive
        exact halive
      exact hnext.2 ▸ h.replace (s.fds p) (some p) hc rfl
  | exit p => exact hnext.2 ▸ h.exit hquiet
  | reparent p parent =>
      refine hnext.2 ▸ ⟨h.top, fun c hc hcq ↦ ?_, h.alive, h.mem, h.lock, h.made, h.settled,
        h.walking⟩
      obtain ⟨above, habove, hparent⟩ := h.up c hc hcq
      have hcp : c ≠ p := fun hcp ↦ hquiet (hcp ▸ hc)
      exact ⟨above, habove, (Function.update_of_ne hcp ..).trans hparent⟩
  | opens p index => exact hnext.2 ▸ h.openSlot index
  | locks p fd => exact hnext.2 ▸ h.take hnext.1.2.2
  | unlocks p fd => exact hnext.2 ▸ h.unlock hquiet
  | closes p fd => exact hnext.2 ▸ h.close hquiet
  | gate p nested =>
      cases nested with
      | false => exact hnext.2 ▸ h.goto (fun _ ↦ trivial) nofun id
      | true => exact hnext.2 ▸ h.goto (fun _ ↦ trivial) nofun fun _ ↦ trivial
  | turn p listed late => exact h.turn hquiet hnext

/-- Below a process that keeps the lock of a slot, no gate ever comes to wait for a slot. A
child that is forked later belongs to the set from the state after its fork on. -/
theorem nested_never_queues {s' : State ι} (h : Under cs q d s)
    (hpath : (pool slots).Path (Undisturbed cs q d) s s') :
    ∀ p ∈ cs, ¬(s'.phase p).queues := by
  have hunder : Under cs q d s' :=
    hpath.preserves (fun _ _ _ hs hquiet hnext ↦ hs.next hquiet hnext) h
  intro p hp hqueues
  have hwalking := hunder.walking p hp
  cases hphase : s'.phase p with
  | trying | opened | waiting =>
      rw [hphase] at hwalking
      exact hwalking
  | absent | foreign | looking | probing | probe | unlocking | closing | running | exempt | ended =>
      rw [hphase] at hqueues
      exact hqueues

end Nested

/-- The parent runs in the only slot. -/
def seated : State Bool where
  phase p := if p then .running 0 else .foreign
  parent := family.parent
  fds p := if p then {0} else ∅
  slot _ := 0
  lock _ := some 0
  made := 1

/-- The child, which has not inherited the descriptor, is let through. -/
theorem seated_never_queues : ∃ s : State Bool,
    (pool 1).Path (Undisturbed Set.univ true 0) seated s ∧ s.phase false = .exempt ∧
      ∀ p, ¬(s.phase p).queues := by
  have hunder : Under Set.univ true 0 seated := by
    refine ⟨trivial, ?_, ?_, Finset.mem_singleton_self 0, rfl, Nat.zero_lt_one, ?_, ?_⟩
    · rintro (_ | _) - hp
      · exact ⟨true, trivial, rfl⟩
      · exact absurd rfl hp
    · rintro (_ | _) - <;> trivial
    · rintro (_ | _) hown
      · cases hown
      · rfl
    · rintro (_ | _) - <;> trivial
  have hlooking : (pool 1).Path (Undisturbed Set.univ true 0) seated _ :=
    System.Path.snoc .refl (e := Event.gate false false) trivial ⟨trivial, rfl⟩
  have hprobing := hlooking.snoc (e := Event.turn false [] false)
    (by
      rintro _ ⟨⟩ fd hfd
      exact absurd hfd (Finset.notMem_empty fd))
    (.inl ⟨nofun, rfl⟩)
  have hparent := hprobing.snoc (e := Event.turn false [] false) nofun rfl
  have hlisted := hparent.snoc (e := Event.turn false [0] false)
    (by
      rintro _ ⟨⟩ fd hfd
      exact List.mem_singleton.mpr rfl)
    (.inl ⟨fun index hindex ↦ ⟨0, Finset.mem_singleton_self 0, (List.mem_singleton.mp hindex).symm⟩,
      rfl⟩)
  have hprobe := hlisted.snoc (e := Event.turn false [] false) nofun rfl
  have hexempt := hprobe.snoc (e := Event.turn false [] false) nofun
    (.inr ⟨fun hfree ↦ Nat.zero_ne_one (hfree 0 ⟨rfl, true, Finset.mem_singleton_self 0⟩), rfl⟩)
  exact ⟨_, hexempt, rfl, fun p ↦ nested_never_queues hunder hexempt p trivial⟩

end RemoteDevbox.Box.SlotPool
