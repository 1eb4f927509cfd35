import RemoteDevbox.Lib.Runs
import Mathlib.Algebra.Order.Ring.Rat
import Mathlib.Data.List.Induction
import Mathlib.Tactic.Linarith

namespace RemoteDevbox.Resume.Quarantine

/-!
# The cap on resume attempts

Every resume cycle of a user's instances reads the attempts of all sessions,
counts its own plan in, writes the attempts back and launches what it planned.
Nothing keeps two cycles apart. Where they happen not to overlap, and what is
planned is launched, the counter says how often a session was launched.
-/

structure Attempt where
  count : ℤ
  last : ℚ
  deriving DecidableEq

/-- The contents of `attempts.json`. -/
abbrev Attempts (U : Type) := U → Option Attempt

/-! ## The planner -/

section Planner

variable {U : Type} [DecidableEq U]

/-- What the planner has of a plan so far. -/
structure Planned (U : Type) where
  state : Attempts U
  rows : List U
  quarantined : List U
  reset : List U

/-- The last attempt was long ago. -/
def longAgo (now : ℚ) (a : Option Attempt) : Bool := decide (now - (a.getD ⟨0, 0⟩).last > 3600)

/-- The attempt of a session, its counter reset when the last one was long ago. -/
def attemptOf (now : ℚ) (a : Option Attempt) : Attempt :=
  let st := a.getD ⟨0, 0⟩
  if longAgo now a then ⟨0, st.last⟩ else st

/-- One session of the plan. The reset is made in the stored record itself, also
where the session is then quarantined. -/
def planOne (maxatt : ℤ) (now : ℚ) (p : Planned U) (uuid : U) : Planned U :=
  let st := attemptOf now (p.state uuid)
  let reset := if longAgo now (p.state uuid) then p.reset ++ [uuid] else p.reset
  if st.count ≥ maxatt then
    ⟨if (p.state uuid).isSome then Function.update p.state uuid (some st) else p.state, p.rows,
      p.quarantined ++ [uuid], reset⟩
  else
    ⟨Function.update p.state uuid (some ⟨st.count + 1, now⟩), p.rows ++ [uuid], p.quarantined,
      reset⟩

def planAll (maxatt : ℤ) (now : ℚ) (state : Attempts U) (plan : List U) : Planned U :=
  plan.foldl (planOne maxatt now) ⟨state, [], [], []⟩

/-- The session is launched once more. -/
def passes (maxatt : ℤ) (now : ℚ) (a : Option Attempt) : Bool :=
  decide ((attemptOf now a).count < maxatt)

/-- What the planner makes of the attempt of a session in the plan. -/
def counted (maxatt : ℤ) (now : ℚ) (a : Option Attempt) : Option Attempt :=
  if passes maxatt now a then some ⟨(attemptOf now a).count + 1, now⟩
  else a.map fun _ ↦ attemptOf now a

theorem planOne_eq (maxatt : ℤ) (now : ℚ) (p : Planned U) (uuid : U) :
    planOne maxatt now p uuid =
      ⟨Function.update p.state uuid (counted maxatt now (p.state uuid)),
        p.rows ++ [uuid].filter fun u ↦ passes maxatt now (p.state u),
        p.quarantined ++ [uuid].filter fun u ↦ !passes maxatt now (p.state u),
        p.reset ++ [uuid].filter fun u ↦ longAgo now (p.state u)⟩ := by
  have hreset : (if longAgo now (p.state uuid) then p.reset ++ [uuid] else p.reset) =
      p.reset ++ [uuid].filter fun u ↦ longAgo now (p.state u) := by
    by_cases hlong : longAgo now (p.state uuid) = true
    · simp [hlong]
    · simp [hlong]
  unfold planOne counted
  simp only [hreset]
  by_cases h : (attemptOf now (p.state uuid)).count ≥ maxatt
  · have hpasses : passes maxatt now (p.state uuid) = false := by
      simpa [passes] using h
    simp only [h, if_true, hpasses, Bool.false_eq_true, if_false, List.filter_cons, List.filter_nil,
      Bool.not_false, List.append_nil]
    cases hstate : p.state uuid with
    | none =>
        have hsame : Function.update p.state uuid none = p.state := by
          rw [← hstate, Function.update_eq_self]
        simp [hsame]
    | some st => simp
  · have hpasses : passes maxatt now (p.state uuid) = true := by
      simpa [passes] using h
    simp [h, hpasses]

/-- A plan that names each session once treats every one by itself. -/
theorem foldl_planOne (maxatt : ℤ) (now : ℚ) {plan : List U} (hnodup : plan.Nodup)
    (p : Planned U) :
    plan.foldl (planOne maxatt now) p =
      ⟨fun u ↦ if u ∈ plan then counted maxatt now (p.state u) else p.state u,
        p.rows ++ plan.filter fun u ↦ passes maxatt now (p.state u),
        p.quarantined ++ plan.filter fun u ↦ !passes maxatt now (p.state u),
        p.reset ++ plan.filter fun u ↦ longAgo now (p.state u)⟩ := by
  induction plan generalizing p with
  | nil => simp
  | cons uuid rest ih =>
      rw [List.nodup_cons] at hnodup
      have hother : ∀ u ∈ rest, Function.update p.state uuid
          (counted maxatt now (p.state uuid)) u = p.state u := by
        intro u hu
        apply Function.update_of_ne
        rintro rfl
        exact hnodup.1 hu
      rw [List.foldl_cons, ih hnodup.2, planOne_eq]
      have hrows : rest.filter (fun u ↦ passes maxatt now (Function.update p.state uuid
          (counted maxatt now (p.state uuid)) u)) =
          rest.filter fun u ↦ passes maxatt now (p.state u) :=
        List.filter_congr fun u hu ↦ by rw [hother u hu]
      have hquarantined : rest.filter (fun u ↦ !passes maxatt now (Function.update p.state uuid
          (counted maxatt now (p.state uuid)) u)) =
          rest.filter fun u ↦ !passes maxatt now (p.state u) :=
        List.filter_congr fun u hu ↦ by rw [hother u hu]
      have hreset : rest.filter (fun u ↦ longAgo now (Function.update p.state uuid
          (counted maxatt now (p.state uuid)) u)) =
          rest.filter fun u ↦ longAgo now (p.state u) :=
        List.filter_congr fun u hu ↦ by rw [hother u hu]
      have hstate : ∀ u, (if u ∈ rest then counted maxatt now (Function.update p.state uuid
          (counted maxatt now (p.state uuid)) u) else Function.update p.state uuid
          (counted maxatt now (p.state uuid)) u) =
          if u ∈ uuid :: rest then counted maxatt now (p.state u) else p.state u := by
        intro u
        by_cases hu : u ∈ rest
        · simp [hu, hother u hu]
        · by_cases heq : u = uuid
          · subst heq
            simp [hu]
          · simp [hu, heq]
      simp only [hrows, hquarantined, hreset, funext hstate, List.append_assoc]
      rw [← List.filter_append, ← List.filter_append, ← List.filter_append, List.singleton_append]

end Planner

/-! ## Cycles -/

/-- Where a cycle is: the planner has noted the time, has read the attempts, is
writing them back, or its rows are being launched. -/
inductive Phase (U : Type) where
  | idle
  | started (now : ℚ) (plan : List U)
  | planned (state : Attempts U) (rows : List U)
  | writing (state : Attempts U) (rows : List U)
  | launching (rows : List U)

/-- A counter that is set back leaves no trace but in this history. -/
inductive Event (U : Type) where
  | launched (uuid : U) (time : ℚ)
  | quarantined (uuid : U)
  | reset (uuid : U)
  deriving DecidableEq

/-- The file is `none` where it cannot be loaded. The log has the latest event first. -/
structure World (C U : Type) where
  clock : ℚ
  file : Option (Attempts U)
  phase : C → Phase U
  log : List (Event U)

inductive Act (C U : Type) where
  | pass (d : ℚ)
  | start (c : C) (plan : List U)
  | load (c : C)
  | truncate (c : C)
  | store (c : C)
  | launch (c : C)
  | skip (c : C)
  | finish (c : C)
  | kill (c : C)

section System

variable {C U : Type} [DecidableEq C] [DecidableEq U]

namespace World

def goTo (w : World C U) (c : C) (phase : Phase U) : World C U :=
  { w with phase := Function.update w.phase c phase }

/-- The attempts as a planner reads them. -/
def attempts (w : World C U) : Attempts U := w.file.getD fun _ ↦ none

end World

def step (maxatt : ℤ) (w : World C U) : Act C U → Option (World C U)
  | .pass d => if 0 ≤ d then some { w with clock := w.clock + d } else none
  | .start c plan =>
      match w.phase c with
      | .idle => some (w.goTo c (.started w.clock plan))
      | _ => none
  | .load c =>
      match w.phase c with
      | .started now plan =>
          let p := planAll maxatt now w.attempts plan
          some { w.goTo c (.planned p.state p.rows) with
            log := (p.quarantined.map .quarantined).reverse ++
              ((p.reset.map .reset).reverse ++ w.log) }
      | _ => none
  | .truncate c =>
      match w.phase c with
      | .planned state rows => some { w.goTo c (.writing state rows) with file := none }
      | _ => none
  | .store c =>
      match w.phase c with
      | .writing state rows => some { w.goTo c (.launching rows) with file := some state }
      | _ => none
  | .launch c =>
      match w.phase c with
      | .launching (uuid :: rows) =>
          some { w.goTo c (.launching rows) with log := .launched uuid w.clock :: w.log }
      | _ => none
  | .skip c =>
      match w.phase c with
      | .launching (_ :: rows) => some (w.goTo c (.launching rows))
      | _ => none
  | .finish c =>
      match w.phase c with
      | .launching [] => some (w.goTo c .idle)
      | _ => none
  | .kill c => some (w.goTo c .idle)

/-- The cycles of one user, from the first on. -/
def cycles (C U : Type) [DecidableEq C] [DecidableEq U] (maxatt : ℤ) :
    System (World C U) (Act C U) where
  start w := w.file = none ∧ (∀ c, w.phase c = .idle) ∧ w.log = []
  next w a w' := step maxatt w a = some w'

end System

/-! ## The cap -/

section Cap

variable {C U : Type} [DecidableEq C] [DecidableEq U]

/-- When a session was launched, the latest time first. -/
def times (log : List (Event U)) (uuid : U) : List ℚ :=
  log.filterMap fun
    | .launched u t => if u = uuid then some t else none
    | .quarantined _ | .reset _ => none

/-- When it was launched since its counter was last reset. -/
def recent (log : List (Event U)) (uuid : U) : List ℚ :=
  times (log.takeWhile (· ≠ .reset uuid)) uuid

/-- The launches within the hour from `t` on. -/
def withinHour (t : ℚ) (ts : List ℚ) : List ℚ := ts.filter fun x ↦ t ≤ x ∧ x ≤ t + 3600

/-- No hour has more launches than allowed. -/
def Capped (maxatt : ℤ) (ts : List ℚ) : Prop :=
  ∀ t, ((withinHour t ts).length : ℤ) ≤ max maxatt 0

/-- What was quarantined had been launched as often as allowed, since the last reset. -/
def Honest (maxatt : ℤ) (log : List (Event U)) : Prop :=
  ∀ later uuid earlier, log = later ++ .quarantined uuid :: earlier →
    maxatt ≤ (recent earlier uuid).length

/-- The attempts of a cycle that has read the file and not yet written it. -/
def between : Phase U → Option (Attempts U)
  | .planned state _ => some state
  | .writing state _ => some state
  | _ => none

/-- The rows of a cycle that are still to be launched. -/
def rowsOf : Phase U → List U
  | .planned _ rows => rows
  | .writing _ rows => rows
  | .launching rows => rows
  | _ => []

/-- What keeps the counter right: a planner reads while no other planner is between
its read and its write; it is given each session once; a session in its plan has
no row that waits for its launch, and where its counter is reset its launches are
all more than an hour old; a planned session is launched; and a cycle is not
killed once it has read the file. -/
def Meets (w : World C U) : Act C U → Prop
  | .load c =>
      match w.phase c with
      | .started now plan =>
          (∀ d, between (w.phase d) = none) ∧ plan.Nodup ∧
            ∀ uuid ∈ plan, (∀ d, uuid ∉ rowsOf (w.phase d)) ∧
              ∀ st, w.attempts uuid = some st → now - st.last > 3600 →
                ∀ t ∈ times w.log uuid, now - t > 3600
      | _ => True
  | .skip _ => False
  | .kill c => between (w.phase c) = none ∧ rowsOf (w.phase c) = []
  | _ => True

/-! ## The counter of one session -/

/-- The counter of a session against its launches: it counts those since it was
last reset, and a row that waits for its launch; all older ones lie more than an
hour before the reset. -/
def Ledger (maxatt : ℤ) (clock : ℚ) (new ts : List ℚ) (pending : Prop) : Option Attempt → Prop
  | none => new = [] ∧ ts = [] ∧ ¬ pending
  | some st => ∃ old reset, ts = new ++ old ∧ Capped maxatt old ∧
      (∀ t ∈ old, t + 3600 < reset) ∧ (∀ t ∈ new, reset ≤ t) ∧ reset ≤ clock ∧
      st.count ≤ max maxatt 0 ∧ (pending → (new.length : ℤ) + 1 = st.count) ∧
      (¬ pending → (new.length : ℤ) = st.count)

variable {maxatt : ℤ} {clock now : ℚ} {new ts : List ℚ} {pending : Prop} {a : Option Attempt}

theorem Capped.nil : Capped maxatt [] := fun t ↦ by simp [withinHour]

/-- No hour reaches from before a reset to behind it. -/
theorem Ledger.capped (h : Ledger maxatt clock new ts pending a) : Capped maxatt ts := by
  cases a with
  | none =>
      obtain ⟨_, rfl, _⟩ := h
      exact Capped.nil
  | some st =>
      obtain ⟨old, reset, rfl, hcapped, hold, hnew, _, hcount, hpending, hsettled⟩ := h
      intro t
      rw [withinHour, List.filter_append, List.length_append]
      by_cases hin : ∃ x ∈ old, t ≤ x ∧ x ≤ t + 3600
      · obtain ⟨x, hx, hlow, _⟩ := hin
        have hnone : new.filter (fun x ↦ t ≤ x ∧ x ≤ t + 3600) = [] := by
          refine List.filter_eq_nil_iff.mpr fun y hy hwithin ↦ ?_
          have hyend : y ≤ t + 3600 := (of_decide_eq_true hwithin).2
          have hend : x + 3600 < y := (hold x hx).trans_le (hnew y hy)
          exact absurd (hyend.trans (add_le_add_left hlow 3600)) (not_le.mpr hend)
        rw [hnone, List.length_nil, Nat.zero_add]
        exact hcapped t
      · have hnone : old.filter (fun x ↦ t ≤ x ∧ x ≤ t + 3600) = [] := by
          refine List.filter_eq_nil_iff.mpr fun x hx hwithin ↦ ?_
          exact hin ⟨x, hx, of_decide_eq_true hwithin⟩
        have hlength := List.length_filter_le (fun x ↦ decide (t ≤ x ∧ x ≤ t + 3600)) new
        rw [hnone, List.length_nil, Nat.add_zero]
        by_cases hp : pending
        · have := hpending hp
          omega
        · have := hsettled hp
          omega

theorem Ledger.later {clock' : ℚ} (hle : clock ≤ clock') (h : Ledger maxatt clock new ts pending a) :
    Ledger maxatt clock' new ts pending a := by
  cases a with
  | none => exact h
  | some st =>
      obtain ⟨old, reset, hts, hcapped, hold, hnew, hreset, hrest⟩ := h
      exact ⟨old, reset, hts, hcapped, hold, hnew, hreset.trans hle, hrest⟩

/-- The row that waits is launched. -/
theorem Ledger.launch {pending' : Prop} (hpending : pending) (hdone : ¬ pending')
    (h : Ledger maxatt clock new ts pending a) :
    Ledger maxatt clock (clock :: new) (clock :: ts) pending' a := by
  cases a with
  | none => exact (h.2.2 hpending).elim
  | some st =>
      obtain ⟨old, reset, rfl, hcapped, hold, hnew, hreset, hcount, hwaits, _⟩ := h
      refine ⟨old, reset, rfl, hcapped, hold, ?_, hreset, hcount, fun hp ↦ (hdone hp).elim,
        fun _ ↦ ?_⟩
      · exact List.forall_mem_cons.mpr ⟨hreset, hnew⟩
      · have hlength := hwaits hpending
        rw [List.length_cons]
        omega

/-- Which counter the planner goes on with. -/
theorem attemptOf_count (now : ℚ) (a : Option Attempt) :
    (attemptOf now a).count = 0 ∧ (a = none ∨ longAgo now a = true) ∨
      ∃ st, a = some st ∧ attemptOf now a = st ∧ longAgo now a = false := by
  cases a with
  | none =>
      refine .inl ⟨?_, .inl rfl⟩
      dsimp only [attemptOf]
      split <;> rfl
  | some st =>
      cases hlong : longAgo now (some st) with
      | true => exact .inl ⟨by simp [attemptOf, hlong], .inr rfl⟩
      | false => exact .inr ⟨st, rfl, by simp [attemptOf, hlong], rfl⟩

/-- After a reset every launch is an old one. -/
theorem Ledger.reset (hold : ∀ t ∈ ts, now - t > 3600) (hle : now ≤ clock)
    (hcapped : Capped maxatt ts) {st : Attempt} (hcount : st.count ≤ max maxatt 0)
    (hwaits : pending → st.count = 1) (hsettled : ¬ pending → st.count = 0) :
    Ledger maxatt clock [] ts pending (some st) := by
  refine ⟨ts, now, rfl, hcapped, ?_, List.forall_mem_nil _, hle, hcount, ?_, ?_⟩
  · intro t ht
    have hage := hold t ht
    linarith
  · intro hp
    rw [hwaits hp]
    rfl
  · intro hp
    rw [hsettled hp]
    rfl

/-- A session of the plan is counted. -/
theorem Ledger.count {pending' : Prop} (hsettled : ¬ pending) (hle : now ≤ clock)
    (hreset : ∀ st, a = some st → now - st.last > 3600 → ∀ t ∈ ts, now - t > 3600)
    (hpending : pending' ↔ passes maxatt now a = true)
    (h : Ledger maxatt clock new ts pending a) :
    Ledger maxatt clock (if longAgo now a then [] else new) ts pending' (counted maxatt now a) := by
  have hcapped := h.capped
  unfold Quarantine.counted
  rcases attemptOf_count now a with ⟨hzero, hlong⟩ | ⟨st, rfl, hsame, hlong⟩
  · have hold : ∀ t ∈ ts, now - t > 3600 := by
      cases a with
      | none => exact h.2.1 ▸ fun t ht ↦ by cases ht
      | some st => exact hreset st rfl (of_decide_eq_true (hlong.resolve_left nofun))
    have hnone : (if longAgo now a then [] else new) = [] := by
      rcases hlong with rfl | hlong
      · rw [h.1, ite_self]
      · rw [if_pos hlong]
    rw [hnone]
    by_cases hp : passes maxatt now a = true
    · have hpos : 0 < maxatt := by simpa [passes, hzero] using hp
      rw [if_pos hp]
      refine Ledger.reset hold hle hcapped ?_ (fun _ ↦ by rw [hzero]; rfl)
        (fun hn ↦ (hn (hpending.mpr hp)).elim)
      show (attemptOf now a).count + 1 ≤ max maxatt 0
      omega
    · rw [if_neg hp]
      cases a with
      | none => exact ⟨rfl, h.2.1, fun hin ↦ hp (hpending.mp hin)⟩
      | some st =>
          refine Ledger.reset hold hle hcapped ?_ (fun hin ↦ (hp (hpending.mp hin)).elim)
            (fun _ ↦ hzero)
          rw [hzero]
          omega
  · obtain ⟨old, reset, rfl, hcappedOld, hold, hnew, hle', hcount, _, hlength⟩ := h
    have hlength := hlength hsettled
    rw [hlong, if_neg Bool.false_ne_true]
    by_cases hp : passes maxatt now (some st) = true
    · have hless : st.count < maxatt := by simpa [passes, hsame] using hp
      rw [if_pos hp, hsame]
      refine ⟨old, reset, rfl, hcappedOld, hold, hnew, hle', ?_, ?_, ?_⟩
      · show st.count + 1 ≤ max maxatt 0
        omega
      · intro _
        show (new.length : ℤ) + 1 = st.count + 1
        omega
      · exact fun hn ↦ (hn (hpending.mpr hp)).elim
    · rw [if_neg hp, Option.map_some, hsame]
      exact ⟨old, reset, rfl, hcappedOld, hold, hnew, hle', hcount,
        fun hin ↦ (hp (hpending.mp hin)).elim, fun _ ↦ hlength⟩

/-- A session that is quarantined has been launched as often as allowed. -/
theorem Ledger.quarantine (hsettled : ¬ pending) (h : Ledger maxatt clock new ts pending a)
    (hpasses : passes maxatt now a = false) :
    maxatt ≤ (if longAgo now a then [] else new).length := by
  have hcount : maxatt ≤ (attemptOf now a).count := by
    simpa [passes] using hpasses
  rcases attemptOf_count now a with ⟨hzero, _⟩ | ⟨st, rfl, hsame, hlong⟩
  · omega
  · obtain ⟨_, _, _, _, _, _, _, _, _, hlength⟩ := h
    have hlength := hlength hsettled
    rw [hsame] at hcount
    rw [hlong, if_neg Bool.false_ne_true]
    omega

/-! ## The log -/

theorem times_append (later earlier : List (Event U)) (uuid : U) :
    times (later ++ earlier) uuid = times later uuid ++ times earlier uuid :=
  List.filterMap_append ..

theorem times_quarantined (uuids : List U) (uuid : U) :
    times (uuids.map .quarantined).reverse uuid = [] := by
  refine List.filterMap_eq_nil_iff.mpr fun e he ↦ ?_
  obtain ⟨u, _, rfl⟩ := List.mem_map.mp (List.mem_reverse.mp he)
  rfl

theorem times_reset (uuids : List U) (uuid : U) : times (uuids.map .reset).reverse uuid = [] := by
  refine List.filterMap_eq_nil_iff.mpr fun e he ↦ ?_
  obtain ⟨u, _, rfl⟩ := List.mem_map.mp (List.mem_reverse.mp he)
  rfl

/-- What a planner adds to the log has no launches. -/
theorem times_planned (quarantined reset : List U) (log : List (Event U)) (uuid : U) :
    times ((quarantined.map .quarantined).reverse ++ ((reset.map .reset).reverse ++ log)) uuid =
      times log uuid := by
  rw [times_append, times_append, times_quarantined, times_reset, List.nil_append, List.nil_append]

theorem recent_cons_quarantined (log : List (Event U)) (u uuid : U) :
    recent (.quarantined u :: log) uuid = recent log uuid := by
  simp [recent, times]

theorem recent_cons_reset (log : List (Event U)) (u uuid : U) :
    recent (.reset u :: log) uuid = if u = uuid then [] else recent log uuid := by
  by_cases hu : u = uuid
  · simp [recent, times, hu]
  · simp [recent, times, hu]

theorem recent_cons_launched (log : List (Event U)) (u uuid : U) (t : ℚ) :
    recent (.launched u t :: log) uuid =
      if u = uuid then t :: recent log uuid else recent log uuid := by
  by_cases hu : u = uuid
  · simp [recent, times, hu]
  · simp [recent, times, hu]

omit [DecidableEq U] in
theorem reverse_map_concat (f : U → Event U) (rest : List U) (last : U) (log : List (Event U)) :
    ((rest ++ [last]).map f).reverse ++ log = f last :: ((rest.map f).reverse ++ log) := by
  simp

theorem recent_quarantined (uuids : List U) (log : List (Event U)) (uuid : U) :
    recent ((uuids.map .quarantined).reverse ++ log) uuid = recent log uuid := by
  induction uuids using List.reverseRecOn with
  | nil => rfl
  | append_singleton rest last ih => rw [reverse_map_concat, recent_cons_quarantined, ih]

theorem recent_reset (uuids : List U) (log : List (Event U)) (uuid : U) :
    recent ((uuids.map .reset).reverse ++ log) uuid =
      if uuid ∈ uuids then [] else recent log uuid := by
  induction uuids using List.reverseRecOn with
  | nil => rfl
  | append_singleton rest last ih =>
      rw [reverse_map_concat, recent_cons_reset, ih]
      by_cases hlast : last = uuid
      · simp [hlast]
      · simp [hlast, Ne.symm hlast]

theorem Honest.nil : Honest maxatt ([] : List (Event U)) := by
  intro later uuid earlier h
  cases later <;> cases h

theorem Honest.cons {log : List (Event U)} (h : Honest maxatt log) {e : Event U}
    (hquiet : ∀ uuid, e = .quarantined uuid → maxatt ≤ (recent log uuid).length) :
    Honest maxatt (e :: log) := by
  intro later u earlier heq
  cases later with
  | nil =>
      obtain ⟨rfl, rfl⟩ := List.cons.inj heq
      exact hquiet u rfl
  | cons _ later => exact h later u earlier (List.cons.inj heq).2

theorem Honest.resets {log : List (Event U)} (h : Honest maxatt log) (uuids : List U) :
    Honest maxatt ((uuids.map .reset).reverse ++ log) := by
  induction uuids using List.reverseRecOn with
  | nil => exact h
  | append_singleton rest last ih =>
      rw [reverse_map_concat]
      exact ih.cons nofun

theorem Honest.quarantined {log : List (Event U)} (h : Honest maxatt log) {uuids : List U}
    (hoften : ∀ uuid ∈ uuids, maxatt ≤ (recent log uuid).length) :
    Honest maxatt ((uuids.map .quarantined).reverse ++ log) := by
  induction uuids using List.reverseRecOn with
  | nil => exact h
  | append_singleton rest last ih =>
      have hrest := ih fun u hu ↦ hoften u (List.mem_append_left _ hu)
      rw [reverse_map_concat]
      refine hrest.cons fun u hu ↦ ?_
      obtain rfl := Event.quarantined.inj hu
      rw [recent_quarantined]
      exact hoften last (List.mem_append_right _ List.mem_cons_self)

/-! ## Every step keeps the counters right -/

/-- The attempts as the planner at work has them, or as the file holds them. -/
def Current (w : World C U) (state : Attempts U) : Prop :=
  (∃ c, between (w.phase c) = some state) ∨
    (∀ c, between (w.phase c) = none) ∧ w.attempts = state

/-- A row of the session waits for its launch. -/
def Waits (w : World C U) (uuid : U) : Prop := ∃ c, uuid ∈ rowsOf (w.phase c)

structure Sound (maxatt : ℤ) (w : World C U) : Prop where
  nodup : ∀ c, (rowsOf (w.phase c)).Nodup
  alone : ∀ c d uuid, uuid ∈ rowsOf (w.phase c) → uuid ∈ rowsOf (w.phase d) → c = d
  started : ∀ c now plan, w.phase c = .started now plan → now ≤ w.clock
  single : ∀ c d, (between (w.phase c)).isSome → (between (w.phase d)).isSome → c = d
  ledger : ∀ state, Current w state → ∀ uuid,
    Ledger maxatt w.clock (recent w.log uuid) (times w.log uuid) (Waits w uuid) (state uuid)
  honest : Honest maxatt w.log

omit [DecidableEq C] [DecidableEq U] in
theorem exists_current (w : World C U) : ∃ state, Current w state := by
  by_cases h : ∃ c state, between (w.phase c) = some state
  · obtain ⟨c, state, hc⟩ := h
    exact ⟨state, .inl ⟨c, hc⟩⟩
  · refine ⟨w.attempts, .inr ⟨fun c ↦ ?_, rfl⟩⟩
    exact Option.eq_none_iff_forall_ne_some.mpr fun state hc ↦ h ⟨c, state, hc⟩

omit [DecidableEq C] in
theorem Sound.capped {w : World C U} (h : Sound maxatt w) (uuid : U) :
    Capped maxatt (times w.log uuid) := by
  obtain ⟨state, hstate⟩ := exists_current w
  exact (h.ledger state hstate uuid).capped

theorem sound_start {w : World C U} (h : (cycles C U maxatt).start w) : Sound maxatt w := by
  obtain ⟨hfile, hidle, hlog⟩ := h
  have hrows : ∀ c, rowsOf (w.phase c) = [] := fun c ↦ by rw [hidle c]; rfl
  have hbetween : ∀ c, between (w.phase c) = none := fun c ↦ by rw [hidle c]; rfl
  refine ⟨fun c ↦ ?_, fun c d uuid hc ↦ ?_, fun c now plan hc ↦ ?_, fun c d hc ↦ ?_,
    fun state hstate uuid ↦ ?_, hlog ▸ Honest.nil⟩
  · rw [hrows c]
    exact List.nodup_nil
  · rw [hrows c] at hc
    cases hc
  · rw [hidle c] at hc
    cases hc
  · rw [hbetween c] at hc
    cases hc
  · rcases hstate with ⟨c, hc⟩ | ⟨_, rfl⟩
    · rw [hbetween c] at hc
      cases hc
    · rw [World.attempts, hfile, hlog]
      refine ⟨rfl, rfl, ?_⟩
      rintro ⟨c, hc⟩
      rw [hrows c] at hc
      cases hc

omit [DecidableEq C] in
/-- A step that leaves the rows and the attempts of every cycle alone. -/
theorem Sound.quiet {w w' : World C U} (h : Sound maxatt w)
    (hrows : ∀ c, rowsOf (w'.phase c) = rowsOf (w.phase c))
    (hbetween : ∀ c, between (w'.phase c) = between (w.phase c))
    (hstarted : ∀ c now plan, w'.phase c = .started now plan → now ≤ w'.clock)
    (hclock : w.clock ≤ w'.clock) (hfile : (∀ c, between (w.phase c) = none) → w'.file = w.file)
    (hlog : w'.log = w.log) : Sound maxatt w' := by
  have hwaits : ∀ uuid, Waits w' uuid ↔ Waits w uuid := fun uuid ↦ by
    simp only [Waits, hrows]
  refine ⟨fun c ↦ ?_, fun c d uuid ↦ ?_, hstarted, fun c d ↦ ?_, fun state hstate uuid ↦ ?_,
    hlog ▸ h.honest⟩
  · rw [hrows c]
    exact h.nodup c
  · rw [hrows c, hrows d]
    exact h.alone c d uuid
  · rw [hbetween c, hbetween d]
    exact h.single c d
  · have hcurrent : Current w state := by
      rcases hstate with ⟨c, hc⟩ | ⟨hnone, hstate⟩
      · exact .inl ⟨c, hbetween c ▸ hc⟩
      · have hnone' : ∀ c, between (w.phase c) = none := fun c ↦ hbetween c ▸ hnone c
        refine .inr ⟨hnone', ?_⟩
        rw [← hstate, World.attempts, World.attempts, hfile hnone']
    rw [hlog, hwaits]
    exact (h.ledger state hcurrent uuid).later hclock

omit [DecidableEq U] in
theorem phase_goTo (w : World C U) (c d : C) (phase : Phase U) :
    (w.goTo c phase).phase d = if d = c then phase else w.phase d :=
  Function.update_apply ..

/-- A cycle goes on, with the same rows and attempts as before. -/
theorem Sound.goTo {w w' : World C U} (h : Sound maxatt w) {c : C} {phase : Phase U}
    (hphase : w'.phase = Function.update w.phase c phase)
    (hrows : rowsOf phase = rowsOf (w.phase c)) (hbetween : between phase = between (w.phase c))
    (hstarted : ∀ now plan, phase = .started now plan → now ≤ w.clock)
    (hclock : w'.clock = w.clock) (hfile : (∀ c, between (w.phase c) = none) → w'.file = w.file)
    (hlog : w'.log = w.log) : Sound maxatt w' := by
  have hother : ∀ d, d ≠ c → w'.phase d = w.phase d := fun d hd ↦ by
    rw [hphase, Function.update_of_ne hd]
  have hself : w'.phase c = phase := by rw [hphase, Function.update_self]
  refine h.quiet (fun d ↦ ?_) (fun d ↦ ?_) (fun d now plan hd ↦ ?_) hclock.ge hfile hlog
  · by_cases hd : d = c
    · subst hd
      rw [hself, hrows]
    · rw [hother d hd]
  · by_cases hd : d = c
    · subst hd
      rw [hself, hbetween]
    · rw [hother d hd]
  · rw [hclock]
    by_cases heq : d = c
    · subst heq
      exact hstarted now plan (hself ▸ hd)
    · exact h.started d now plan (hother d heq ▸ hd)

theorem sound_load {w w' : World C U} (h : Sound maxatt w) {c : C} {now : ℚ} {plan : List U}
    (hc : w.phase c = .started now plan) (hmeets : Meets w (.load c))
    (hphase : w'.phase = Function.update w.phase c (.planned
      (planAll maxatt now w.attempts plan).state (planAll maxatt now w.attempts plan).rows))
    (hclock : w'.clock = w.clock)
    (hlog : w'.log = ((planAll maxatt now w.attempts plan).quarantined.map .quarantined).reverse ++
      (((planAll maxatt now w.attempts plan).reset.map .reset).reverse ++ w.log)) :
    Sound maxatt w' := by
  simp only [Meets, hc] at hmeets
  obtain ⟨hnone, hnodup, hplan⟩ := hmeets
  rw [planAll, foldl_planOne maxatt now hnodup] at hphase hlog
  simp only [List.nil_append] at hphase hlog
  have hle : now ≤ w.clock := h.started c now plan hc
  have hledger : ∀ uuid, Ledger maxatt w.clock (recent w.log uuid) (times w.log uuid)
      (Waits w uuid) (w.attempts uuid) := h.ledger w.attempts (.inr ⟨hnone, rfl⟩)
  have hrecent : ∀ uuid, recent (((plan.filter fun u ↦ longAgo now (w.attempts u)).map
      Event.reset).reverse ++ w.log) uuid =
        if uuid ∈ plan ∧ longAgo now (w.attempts uuid) then [] else recent w.log uuid := by
    intro uuid
    simp only [recent_reset, List.mem_filter]
  have hsettled : ∀ uuid ∈ plan, ¬ Waits w uuid := fun uuid huuid ⟨d, hd⟩ ↦
    (hplan uuid huuid).1 d hd
  have hother : ∀ d, d ≠ c → w'.phase d = w.phase d := fun d hd ↦ by
    rw [hphase, Function.update_of_ne hd]
  have hself : rowsOf (w'.phase c) = plan.filter fun u ↦ passes maxatt now (w.attempts u) := by
    rw [hphase, Function.update_self]
    rfl
  have hbusy : between (w'.phase c) =
      some fun u ↦ if u ∈ plan then counted maxatt now (w.attempts u) else w.attempts u := by
    rw [hphase, Function.update_self]
    rfl
  have hidle : ∀ d, (between (w'.phase d)).isSome → d = c := by
    intro d hd
    by_contra hne
    rw [hother d hne, hnone d] at hd
    cases hd
  have hplanned : ∀ d uuid, uuid ∈ rowsOf (w'.phase d) → uuid ∈ plan → d = c := by
    intro d uuid hd huuid
    by_contra hne
    rw [hother d hne] at hd
    exact (hplan uuid huuid).1 d hd
  have hinplan : ∀ uuid, uuid ∈ rowsOf (w'.phase c) → uuid ∈ plan := fun uuid huuid ↦
    (List.mem_filter.mp (hself ▸ huuid)).1
  refine ⟨fun d ↦ ?_, fun d e uuid hd he ↦ ?_, fun d now' plan' hd ↦ ?_,
    fun d e hd he ↦ (hidle d hd).trans (hidle e he).symm, fun state hstate uuid ↦ ?_, ?_⟩
  · by_cases hd : d = c
    · rw [hd, hself]
      exact hnodup.filter _
    · rw [hother d hd]
      exact h.nodup d
  · by_cases huuid : uuid ∈ plan
    · exact (hplanned d uuid hd huuid).trans (hplanned e uuid he huuid).symm
    · have hdc : d ≠ c := fun heq ↦ huuid (hinplan uuid (heq ▸ hd))
      have hec : e ≠ c := fun heq ↦ huuid (hinplan uuid (heq ▸ he))
      rw [hother d hdc] at hd
      rw [hother e hec] at he
      exact h.alone d e uuid hd he
  · by_cases hdc : d = c
    · rw [hdc] at hd
      rw [hd] at hbusy
      cases hbusy
    · rw [hclock]
      exact h.started d now' plan' (hother d hdc ▸ hd)
  · have hnow : state = fun u ↦
        if u ∈ plan then counted maxatt now (w.attempts u) else w.attempts u := by
      rcases hstate with ⟨d, hd⟩ | ⟨hall, _⟩
      · have hdc := hidle d (by rw [hd]; rfl)
        rw [hdc, hbusy] at hd
        exact (Option.some.inj hd).symm
      · rw [hall c] at hbusy
        cases hbusy
    rw [hnow, hclock, hlog, times_planned, recent_quarantined, hrecent]
    dsimp only
    by_cases huuid : uuid ∈ plan
    · simp only [huuid, true_and, if_true]
      refine Ledger.count (hsettled uuid huuid) hle (hplan uuid huuid).2 ?_ (hledger uuid)
      constructor
      · rintro ⟨d, hd⟩
        rw [hplanned d uuid hd huuid, hself] at hd
        exact (List.mem_filter.mp hd).2
      · intro hpasses
        refine ⟨c, ?_⟩
        rw [hself]
        exact List.mem_filter.mpr ⟨huuid, hpasses⟩
    · simp only [huuid, false_and, if_false]
      have hwaits : Waits w' uuid ↔ Waits w uuid := by
        constructor
        · rintro ⟨d, hd⟩
          have hdc : d ≠ c := fun heq ↦ huuid (hinplan uuid (heq ▸ hd))
          exact ⟨d, hother d hdc ▸ hd⟩
        · rintro ⟨d, hd⟩
          have hdc : d ≠ c := by
            rintro rfl
            rw [hc] at hd
            cases hd
          exact ⟨d, (hother d hdc).symm ▸ hd⟩
      rw [hwaits]
      exact hledger uuid
  · rw [hlog]
    refine (h.honest.resets _).quarantined fun uuid huuid ↦ ?_
    obtain ⟨hin, hpasses⟩ := List.mem_filter.mp huuid
    rw [hrecent]
    simp only [hin, true_and]
    exact Ledger.quarantine (hsettled uuid hin) (hledger uuid) (by simpa using hpasses)

theorem sound_store {w : World C U} (h : Sound maxatt w) {c : C} {state : Attempts U}
    {rows : List U} (hc : w.phase c = .writing state rows) :
    Sound maxatt { w.goTo c (.launching rows) with file := some state } := by
  have hbusy : between (w.phase c) = some state := by rw [hc]; rfl
  have halone : ∀ d, d ≠ c → between (w.phase d) = none := by
    intro d hd
    by_contra hsome
    exact hd (h.single d c (Option.ne_none_iff_isSome.mp hsome) (by rw [hbusy]; rfl))
  have hrows : ∀ d, rowsOf ((w.goTo c (.launching rows)).phase d) = rowsOf (w.phase d) := by
    intro d
    rw [phase_goTo]
    split
    · rename_i hd
      rw [hd, hc]
      rfl
    · rfl
  have hnone : ∀ d, between ((w.goTo c (.launching rows)).phase d) = none := by
    intro d
    rw [phase_goTo]
    split
    · rfl
    · rename_i hd
      exact halone d hd
  refine ⟨fun d ↦ ?_, fun d e uuid ↦ ?_, fun d now plan hd ↦ ?_, fun d e hd ↦ ?_,
    fun state' hstate uuid ↦ ?_, h.honest⟩
  · exact hrows d ▸ h.nodup d
  · show uuid ∈ rowsOf ((w.goTo c (.launching rows)).phase d) →
      uuid ∈ rowsOf ((w.goTo c (.launching rows)).phase e) → d = e
    rw [hrows d, hrows e]
    exact h.alone d e uuid
  · rw [phase_goTo] at hd
    split at hd
    · cases hd
    · exact h.started d now plan hd
  · rw [hnone d] at hd
    cases hd
  · rcases hstate with ⟨d, hd⟩ | ⟨_, rfl⟩
    · rw [hnone d] at hd
      cases hd
    · have hledger := h.ledger state (.inl ⟨c, hbusy⟩) uuid
      have hwaits : Waits { w.goTo c (.launching rows) with file := some state } uuid ↔
          Waits w uuid := exists_congr fun d ↦ by rw [hrows d]
      rw [hwaits]
      exact hledger

theorem sound_launch {w : World C U} (h : Sound maxatt w) {c : C} {uuid : U} {rows : List U}
    (hc : w.phase c = .launching (uuid :: rows)) :
    Sound maxatt { w.goTo c (.launching rows) with log := .launched uuid w.clock :: w.log } := by
  have hrowsC : rowsOf (w.phase c) = uuid :: rows := by rw [hc]; rfl
  have hnodup : (uuid :: rows).Nodup := hrowsC ▸ h.nodup c
  have hwas : ∀ d u, u ∈ rowsOf ((w.goTo c (.launching rows)).phase d) → u ∈ rowsOf (w.phase d) := by
    intro d u hu
    rw [phase_goTo] at hu
    split at hu
    · rename_i hd
      rw [hd, hrowsC]
      exact List.mem_cons_of_mem _ hu
    · exact hu
  have hbetween : ∀ d, between ((w.goTo c (.launching rows)).phase d) = between (w.phase d) := by
    intro d
    rw [phase_goTo]
    split
    · rename_i hd
      rw [hd, hc]
      rfl
    · rfl
  have hgone : ∀ d, uuid ∉ rowsOf ((w.goTo c (.launching rows)).phase d) := by
    intro d hd
    have hdc : d = c := h.alone d c uuid (hwas d uuid hd) (by rw [hrowsC]; exact List.mem_cons_self)
    rw [hdc, phase_goTo, if_pos rfl] at hd
    exact (List.nodup_cons.mp hnodup).1 hd
  refine ⟨fun d ↦ ?_, fun d e u hd he ↦ ?_, fun d now plan hd ↦ ?_, fun d e ↦ ?_,
    fun state hstate u ↦ ?_, h.honest.cons nofun⟩
  · rw [phase_goTo]
    split
    · exact (List.nodup_cons.mp hnodup).2
    · exact h.nodup d
  · exact h.alone d e u (hwas d u hd) (hwas e u he)
  · rw [phase_goTo] at hd
    split at hd
    · cases hd
    · exact h.started d now plan hd
  · show (between ((w.goTo c (.launching rows)).phase d)).isSome →
      (between ((w.goTo c (.launching rows)).phase e)).isSome → d = e
    rw [hbetween d, hbetween e]
    exact h.single d e
  · have hcurrent : Current w state := by
      rcases hstate with ⟨d, hd⟩ | ⟨hnone, hstate⟩
      · exact .inl ⟨d, hbetween d ▸ hd⟩
      · exact .inr ⟨fun d ↦ hbetween d ▸ hnone d, hstate⟩
    have hledger := h.ledger state hcurrent u
    by_cases hu : u = uuid
    · subst hu
      have htimes : times (.launched u w.clock :: w.log) u = w.clock :: times w.log u := by
        simp [times]
      rw [htimes, recent_cons_launched, if_pos rfl]
      refine Ledger.launch ⟨c, ?_⟩ (fun ⟨d, hd⟩ ↦ hgone d hd) hledger
      rw [hrowsC]
      exact List.mem_cons_self
    · have htimes : times (.launched uuid w.clock :: w.log) u = times w.log u := by
        simp [times, Ne.symm hu]
      have hwaits : Waits { w.goTo c (.launching rows) with
          log := .launched uuid w.clock :: w.log } u ↔ Waits w u := by
        refine exists_congr fun d ↦ ⟨hwas d u, fun hd ↦ ?_⟩
        rw [phase_goTo]
        split
        · rename_i hdc
          rw [hdc, hrowsC] at hd
          exact (List.mem_cons.mp hd).resolve_left hu
        · exact hd
      rw [htimes, recent_cons_launched, if_neg (Ne.symm hu), hwaits]
      exact hledger

theorem sound_step {w w' : World C U} {act : Act C U} (h : Sound maxatt w) (hmeets : Meets w act)
    (hstep : (cycles C U maxatt).next w act w') : Sound maxatt w' := by
  simp only [cycles] at hstep
  cases act with
  | pass d =>
      simp only [step] at hstep
      split at hstep
      · rename_i hd
        obtain rfl := Option.some.inj hstep
        have hle : w.clock ≤ w.clock + d := le_add_of_nonneg_right hd
        exact h.quiet (fun _ ↦ rfl) (fun _ ↦ rfl)
          (fun c now plan hc ↦ (h.started c now plan hc).trans hle) hle (fun _ ↦ rfl) rfl
      · cases hstep
  | start c plan =>
      simp only [step] at hstep
      split at hstep
      · rename_i hc
        obtain rfl := Option.some.inj hstep
        refine h.goTo rfl (by rw [hc]; rfl) (by rw [hc]; rfl) ?_ rfl (fun _ ↦ rfl) rfl
        rintro now plan' ⟨⟩
        exact le_refl _
      · cases hstep
  | load c =>
      simp only [step] at hstep
      split at hstep
      · rename_i now plan hc
        obtain rfl := Option.some.inj hstep
        exact sound_load h hc hmeets rfl rfl rfl
      · cases hstep
  | truncate c =>
      simp only [step] at hstep
      split at hstep
      · rename_i state rows hc
        obtain rfl := Option.some.inj hstep
        refine h.goTo rfl (by rw [hc]; rfl) (by rw [hc]; rfl) (fun now plan hp ↦ by cases hp) rfl
          (fun hnone ↦ ?_) rfl
        have hbusy := hnone c
        rw [hc] at hbusy
        cases hbusy
      · cases hstep
  | store c =>
      simp only [step] at hstep
      split at hstep
      · rename_i state rows hc
        obtain rfl := Option.some.inj hstep
        exact sound_store h hc
      · cases hstep
  | launch c =>
      simp only [step] at hstep
      split at hstep
      · rename_i uuid rows hc
        obtain rfl := Option.some.inj hstep
        exact sound_launch h hc
      · cases hstep
  | skip c => exact hmeets.elim
  | finish c =>
      simp only [step] at hstep
      split at hstep
      · rename_i hc
        obtain rfl := Option.some.inj hstep
        exact h.goTo rfl (by rw [hc]; rfl) (by rw [hc]; rfl) (fun now plan hp ↦ by cases hp) rfl
          (fun _ ↦ rfl) rfl
      · cases hstep
  | kill c =>
      obtain rfl := Option.some.inj hstep
      exact h.goTo rfl hmeets.2.symm hmeets.1.symm (fun now plan hp ↦ by cases hp) rfl
        (fun _ ↦ rfl) rfl

/-- In every run whose steps keep the counters right, no session is launched more
often within an hour than allowed, and what is quarantined was launched that often
since its counter was last reset. -/
theorem quarantine_caps {w : World C U} (h : (cycles C U maxatt).Reaches Meets w) :
    (∀ uuid, Capped maxatt (times w.log uuid)) ∧ Honest maxatt w.log := by
  have hsound : Sound maxatt w := h.invariant (fun w hw ↦ sound_start hw)
    fun w act w' hw hmeets hstep ↦ sound_step hw hmeets hstep
  exact ⟨hsound.capped, hsound.honest⟩

end Cap

/-! ## One session of two cycles -/

section OneSession

/-- One of two cycles at work on one session. -/
def alone (clock : ℚ) (file : Option (Option Attempt)) (c : Bool) (phase : Phase Unit)
    (log : List (Event Unit)) : World Bool Unit :=
  ⟨clock, file.map fun a _ ↦ a, Function.update (fun _ ↦ .idle) c phase, log⟩

variable {clock : ℚ} {file : Option (Option Attempt)} {c : Bool} {phase : Phase Unit}
  {log : List (Event Unit)} {a : Option Attempt}

theorem alone_goTo (phase' : Phase Unit) :
    (alone clock file c phase log).goTo c phase' = alone clock file c phase' log := by
  simp only [World.goTo, alone, Function.update_idem]

@[simp] theorem alone_phase : (alone clock file c phase log).phase c = phase := by
  simp [alone]

theorem alone_idle (d : Bool) : alone clock file c .idle log = alone clock file d .idle log := by
  simp only [alone, Function.update_eq_self]

theorem alone_other {d : Bool} (h : d ≠ c) : (alone clock file c phase log).phase d = .idle := by
  simp [alone, h]

theorem alone_attempts : (alone clock file c phase log).attempts = fun _ ↦ file.getD none := by
  cases file <;> rfl

theorem planAll_alone (now : ℚ) (a : Option Attempt) : planAll 1 now (fun _ ↦ a) [()] =
    ⟨fun _ ↦ counted 1 now a, if passes 1 now a then [()] else [],
      if passes 1 now a then [] else [()], if longAgo now a then [()] else []⟩ := by
  have hnodup : [()].Nodup := by simp
  rw [planAll, foldl_planOne 1 now hnodup]
  cases hpasses : passes 1 now a <;> cases hlong : longAgo now a <;> simp [hpasses, hlong]

/-- The session is planned by either cycle. -/
theorem reaches_planned (d : Bool) {pass long : Bool}
    (h : (cycles Bool Unit 1).Reaches Meets (alone clock file c .idle log))
    (hold : ∀ st, file.getD none = some st → clock - st.last > 3600 →
      ∀ t ∈ times log (), clock - t > 3600)
    (hcounted : counted 1 clock (file.getD none) = a)
    (hpass : passes 1 clock (file.getD none) = pass)
    (hlong : longAgo clock (file.getD none) = long) :
    (cycles Bool Unit 1).Reaches Meets
      (alone clock file d (.planned (fun _ ↦ a) (if pass then [()] else []))
        ((if pass then [] else [.quarantined ()]) ++ ((if long then [.reset ()] else []) ++ log))) := by
  rw [alone_idle d] at h
  have hstarted : (cycles Bool Unit 1).Reaches Meets
      (alone clock file d (.started clock [()]) log) := by
    refine h.snoc (e := Act.start d [()]) trivial ?_
    simp only [cycles, step, alone_phase, alone_goTo]
    rfl
  have hquiet : ∀ e, between ((alone clock file d (.started clock [()]) log).phase e) = none ∧
      rowsOf ((alone clock file d (.started clock [()]) log).phase e) = [] := by
    intro e
    by_cases he : e = d
    · subst he
      exact ⟨by rw [alone_phase]; rfl, by rw [alone_phase]; rfl⟩
    · exact ⟨by rw [alone_other he]; rfl, by rw [alone_other he]; rfl⟩
  refine hstarted.snoc (e := Act.load d) ?_ ?_
  · simp only [Meets, alone_phase, alone_attempts]
    refine ⟨fun e ↦ (hquiet e).1, by simp, fun uuid _ ↦ ⟨fun e ↦ ?_, hold⟩⟩
    rw [(hquiet e).2]
    exact List.not_mem_nil
  · simp only [cycles, step, alone_phase, alone_attempts, planAll_alone, alone_goTo, hcounted,
      hpass, hlong]
    cases pass <;> cases long <;> rfl

theorem reaches_stored {rows : List Unit} (h : (cycles Bool Unit 1).Reaches Meets
      (alone clock file c (.planned (fun _ ↦ a) rows) log)) :
    (cycles Bool Unit 1).Reaches Meets (alone clock (some a) c (.launching rows) log) := by
  have htruncated : (cycles Bool Unit 1).Reaches Meets
      (alone clock none c (.writing (fun _ ↦ a) rows) log) := by
    refine h.snoc (e := Act.truncate c) trivial ?_
    simp only [cycles, step, alone_phase, alone_goTo]
    rfl
  refine htruncated.snoc (e := Act.store c) trivial ?_
  simp only [cycles, step, alone_phase, alone_goTo]
  rfl

theorem reaches_launched (h : (cycles Bool Unit 1).Reaches Meets
      (alone clock file c (.launching [()]) log)) :
    (cycles Bool Unit 1).Reaches Meets
      (alone clock file c (.launching []) (.launched () clock :: log)) := by
  refine h.snoc (e := Act.launch c) trivial ?_
  simp only [cycles, step, alone_phase, alone_goTo]
  rfl

/-- The cycle is over, and time passes. -/
theorem reaches_later {d : ℚ} (hd : 0 ≤ d) (h : (cycles Bool Unit 1).Reaches Meets
      (alone clock file c (.launching []) log)) :
    (cycles Bool Unit 1).Reaches Meets (alone (clock + d) file c .idle log) := by
  have hidle : (cycles Bool Unit 1).Reaches Meets (alone clock file c .idle log) := by
    refine h.snoc (e := Act.finish c) trivial ?_
    simp only [cycles, step, alone_phase, alone_goTo]
  refine hidle.snoc (e := Act.pass d) trivial ?_
  simp only [cycles, step, if_pos hd]
  rfl

/-- One cycle launches the session, the other finds it quarantined a minute later, and an hour
after that its counter is reset and it is launched again. -/
theorem quarantine_caps_twice :
    ∃ w : World Bool Unit,
      w.log = [.launched () 3760, .reset (), .quarantined (), .launched () 0] ∧
        (∀ uuid, Capped 1 (times w.log uuid)) ∧ Honest 1 w.log := by
  have hstart : (cycles Bool Unit 1).Reaches Meets (alone 0 none false .idle []) := by
    refine .of_start ⟨rfl, fun c ↦ ?_, rfl⟩
    rw [alone, Function.update_eq_self]
  have hfirst := reaches_later (d := 60) (by decide) (reaches_launched (reaches_stored
    (reaches_planned (a := some ⟨1, 0⟩) false hstart nofun (by decide +kernel)
      (by decide +kernel : _ = true) (by decide +kernel : _ = false))))
  have hsecond := reaches_later (d := 3700) (by decide) (reaches_stored
    (reaches_planned (a := some ⟨1, 0⟩) true hfirst
      (fun st hst hlong ↦ by
        obtain rfl := Option.some.inj hst
        exact absurd hlong (by decide +kernel))
      (by decide +kernel) (by decide +kernel : _ = false) (by decide +kernel : _ = false)))
  have hthird := reaches_launched (reaches_stored
    (reaches_planned (a := some ⟨1, 3760⟩) false hsecond
      (fun _ _ _ ↦ List.forall_mem_singleton.mpr (by decide +kernel))
      (by decide +kernel) (by decide +kernel : _ = true) (by decide +kernel : _ = true)))
  refine ⟨_, ?_, quarantine_caps hthird⟩
  decide +kernel

end OneSession

/-! ## Where the counter goes wrong -/

section Failures

variable {C : Type} [DecidableEq C]

def atFirst (C : Type) : World C Unit := ⟨0, none, fun _ ↦ .idle, []⟩

/-- The steps one after the other. -/
def walk (w : World C Unit) (acts : List (Act C Unit)) : Option (World C Unit) :=
  acts.foldlM (step 1) w

theorem walk_reaches {w w' : World C Unit} {acts : List (Act C Unit)}
    (h : (cycles C Unit 1).Reaches (fun _ _ ↦ True) w) (hwalk : walk w acts = some w') :
    (cycles C Unit 1).Reaches (fun _ _ ↦ True) w' := by
  induction acts generalizing w with
  | nil =>
      obtain rfl := Option.some.inj hwalk
      exact h
  | cons act acts ih =>
      simp only [walk, List.foldlM_cons, bind, Option.bind_eq_some_iff] at hwalk
      obtain ⟨next, hnext, hrest⟩ := hwalk
      exact ih (h.snoc trivial hnext) hrest

theorem walk_log {acts : List (Act C Unit)} (log : List (Event Unit))
    (h : (walk (atFirst C) acts).map (·.log) = some log) :
    ∃ w, (cycles C Unit 1).Reaches (fun _ _ ↦ True) w ∧ w.log = log := by
  obtain ⟨w, hw, hlog⟩ := Option.map_eq_some_iff.mp h
  exact ⟨w, walk_reaches (.of_start ⟨rfl, fun _ ↦ rfl, rfl⟩) hw, hlog⟩

/-- Two cycles that read the attempts before either writes them. -/
def overlapping : List (Act Bool Unit) :=
  [.start false [()], .start true [()], .load false, .load true, .truncate false, .store false,
    .truncate true, .store true, .launch false, .launch true]

/-- A session that is found running, and planned again a minute later. -/
def foundRunning : List (Act Bool Unit) :=
  [.start false [()], .load false, .truncate false, .store false, .skip false, .finish false,
    .pass 60, .start true [()], .load true]

/-- One launch is allowed: overlapping cycles make two at once, and a session that
was never launched is quarantined. -/
theorem cap_of_one_fails :
    (∃ w : World Bool Unit, (cycles Bool Unit 1).Reaches (fun _ _ ↦ True) w ∧
        ¬ ∀ uuid, Capped 1 (times w.log uuid)) ∧
      ∃ w : World Bool Unit, (cycles Bool Unit 1).Reaches (fun _ _ ↦ True) w ∧
        .quarantined () ∈ w.log ∧ times w.log () = [] ∧ ¬ Honest 1 w.log := by
  have htwice : (walk (atFirst Bool) overlapping).map (·.log) =
      some [.launched () 0, .launched () 0] := by decide +kernel
  have hnever : (walk (atFirst Bool) foundRunning).map (·.log) =
      some [.quarantined ()] := by decide +kernel
  obtain ⟨w₁, hreaches₁, hlog₁⟩ := walk_log _ htwice
  obtain ⟨w₂, hreaches₂, hlog₂⟩ := walk_log _ hnever
  refine ⟨⟨w₁, hreaches₁, fun h ↦ ?_⟩,
    ⟨w₂, hreaches₂, by simp [hlog₂], by rw [hlog₂]; rfl, fun h ↦ ?_⟩⟩
  · have hcapped := h () 0
    rw [hlog₁] at hcapped
    revert hcapped
    decide +kernel
  · have hlaunched := h [] () [] hlog₂
    revert hlaunched
    decide

end Failures

end RemoteDevbox.Resume.Quarantine
