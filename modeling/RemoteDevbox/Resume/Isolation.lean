import RemoteDevbox.Resume.Planner

namespace RemoteDevbox.Resume.Scan

open Py

/-!
# Isolation of the sessions of a batch

A resume cycle is to bring back every session whose own files are in order,
whatever the files of the others hold. It does so as long as no session of the
batch makes a read of the scan or of the planner raise an error, and no mode to be
launched holds a separator: the first one that does costs the whole batch.
-/

/-! ## The attempts of a session -/

section Attempts

/-- The count of an entry that still matters. -/
def effectiveCount (now : ℚ) : Value → Value
  | .dict st =>
      match operand ((st.lookup (str "last")).getD (.int 0)) with
      | .ok last => if expired now 3600 last then .int 0
          else (st.lookup (str "count")).getD (.int 0)
      | .error _ => .int 0
  | _ => .int 0

/-- The planner can tell when the last attempt was, and how many there were if it
was within the hour. -/
def usableEntry (now : ℚ) : Value → Bool
  | .dict st =>
      match operand ((st.lookup (str "last")).getD (.int 0)) with
      | .ok last => expired now 3600 last || (st.lookup (str "count")).any (·.number.isSome)
      | .error _ => false
  | _ => false

/-- The count reaches the cap. -/
def reaches (maxatt : ℤ) (count : Value) : Bool :=
  match count.number with
  | some (.fin q) => decide (q ≥ maxatt)
  | some .inf => true
  | _ => false

theorem atLeast_of_number {maxatt : ℤ} {count : Value} (h : count.number.isSome = true) :
    atLeast maxatt count = .ok (reaches maxatt count) := by
  unfold atLeast reaches
  cases hnumber : count.number with
  | none => simp [hnumber] at h
  | some x => cases x <;> rfl

theorem number_of_atLeast {maxatt : ℤ} {count : Value} {b : Bool}
    (h : atLeast maxatt count = .ok b) : count.number.isSome = true := by
  unfold atLeast at h
  cases hnumber : count.number with
  | none => simp [hnumber] at h
  | some x => rfl

theorem increment_of_number {count : Value} (h : count.number.isSome = true) :
    ∃ next, increment count = .ok next := by
  cases count with
  | bool b => exact ⟨_, rfl⟩
  | int z => exact ⟨_, rfl⟩
  | float x => cases x <;> exact ⟨_, rfl⟩
  | _ => cases h

variable {now : ℚ} {fields : List (Str × Value)} {uuid : Str}

theorem attempt_of_usable
    (h : usableEntry now ((fields.lookup uuid).getD noAttempts) = true) :
    ∃ st, attempt now (.dict fields) uuid = .ok st ∧
      countOf st = .ok (effectiveCount now ((fields.lookup uuid).getD noAttempts)) ∧
      (effectiveCount now ((fields.lookup uuid).getD noAttempts)).number.isSome = true := by
  simp only [attempt]
  cases hentry : (fields.lookup uuid).getD noAttempts with
  | dict st =>
      simp only [hentry, usableEntry] at h
      simp only [effectiveCount]
      cases hlast : operand ((st.lookup (str "last")).getD (.int 0)) with
      | error e => simp [hlast] at h
      | ok last =>
          refine ⟨_, rfl, ?_⟩
          simp only [hlast, Bool.or_eq_true] at h ⊢
          by_cases hexpired : expired now 3600 last = true
          · have hcount : (assign st (str "count") (.int 0)).lookup (str "count") =
                some (.int 0) := by
              rw [lookup_assign, if_pos rfl]
            simp [hexpired, countOf, hcount, Value.number]
          · have hcount := h.resolve_left hexpired
            cases hlookup : st.lookup (str "count") with
            | none => simp [hlookup] at hcount
            | some count =>
                simp only [hlookup, Option.any_some] at hcount
                simp [hexpired, countOf, hlookup, hcount]
  | _ => simp [hentry, usableEntry] at h

theorem usable_of_attempt {st : List (Str × Value)} {count : Value}
    (hattempt : attempt now (.dict fields) uuid = .ok st) (hcount : countOf st = .ok count)
    (hnumber : count.number.isSome = true) :
    usableEntry now ((fields.lookup uuid).getD noAttempts) = true := by
  simp only [attempt] at hattempt
  cases hentry : (fields.lookup uuid).getD noAttempts with
  | dict entry =>
      simp only [hentry, bind_eq_ok, pure_eq_ok, Except.ok.injEq] at hattempt
      obtain ⟨last, hlast, rfl⟩ := hattempt
      simp only [usableEntry, hlast]
      by_cases hexpired : expired now 3600 last = true
      · rw [hexpired, Bool.true_or]
      · simp only [hexpired, Bool.false_eq_true, if_false, countOf] at hcount
        cases hlookup : entry.lookup (str "count") with
        | none => simp [hlookup] at hcount
        | some c =>
            simp only [hlookup, Except.ok.injEq] at hcount
            simp [hcount, hnumber]
  | _ => simp [hentry] at hattempt

end Attempts

/-! ## One session of the plan -/

section PlanOne

variable (env : Env) (bmap : List (Str × Value))

/-- The entry the attempts have for a session. -/
def entryFor (fields : List (Str × Value)) (uuid : Str) : Value :=
  (fields.lookup uuid).getD noAttempts

def capped (fields : List (Str × Value)) (uuid : Str) : Bool :=
  reaches env.maxAttempts (effectiveCount env.now (entryFor fields uuid))

/-- The planner gets through the session. -/
def Planable (fields : List (Str × Value)) (p : Interrupted) : Prop :=
  usableEntry env.now (entryFor fields p.uuid) = true ∧
    (capped env fields p.uuid = true ∨ ∃ perm, p.permissionMode = .str perm)

/-- What is made of a session of the plan. -/
def Makes (fields : List (Str × Value)) (p : Interrupted) : Outcome → Prop
  | .quarantined line => capped env fields p.uuid = true ∧
      line = quarantineLine env p.uuid (effectiveCount env.now (entryFor fields p.uuid))
  | .planned row _ => capped env fields p.uuid = false ∧
      ∃ perm, p.permissionMode = .str perm ∧ row = rowOf env p perm

theorem lookup_store {fields fields' : List (Str × Value)} {uuid u : Str}
    {st : List (Str × Value)} (h : store (.dict fields) uuid st = .dict fields') (hu : u ≠ uuid) :
    fields'.lookup u = fields.lookup u := by
  obtain rfl := Value.dict.inj h
  rw [lookup_assign, if_neg hu]

theorem lookup_reset {fields : List (Str × Value)} {uuid : Str} {st : List (Str × Value)} :
    ∃ fields', reset (.dict fields) uuid st = .dict fields' ∧
      ∀ u, u ≠ uuid → fields'.lookup u = fields.lookup u := by
  unfold reset
  simp only
  split
  · exact ⟨_, rfl, fun u hu ↦ lookup_store rfl hu⟩
  · exact ⟨fields, rfl, fun _ _ ↦ rfl⟩

variable {fields : List (Str × Value)} {p : Interrupted}

theorem planOne_of_planable (h : Planable env fields p) :
    ∃ r, planOne env bmap (.dict fields) p = .ok r := by
  obtain ⟨husable, hperm⟩ := h
  obtain ⟨st, hattempt, hcount, hnumber⟩ := attempt_of_usable husable
  obtain ⟨next, hnext⟩ := increment_of_number hnumber
  simp only [planOne, hattempt, ok_bind, hcount, atLeast_of_number hnumber]
  change ∃ r, (if capped env fields p.uuid = true then _ else _) = _
  by_cases hcapped : capped env fields p.uuid = true
  · rw [if_pos hcapped]
    exact ⟨_, rfl⟩
  · obtain ⟨perm, hmode⟩ := hperm.resolve_left hcapped
    rw [if_neg hcapped]
    change ∃ r, (increment (effectiveCount env.now (entryFor fields p.uuid)) >>= _) = _
    have hnext' : increment (effectiveCount env.now (entryFor fields p.uuid)) = .ok next := hnext
    simp only [hnext', ok_bind, hmode]
    exact ⟨_, rfl⟩

theorem makes_of_planOne {state : Value} {o : Outcome}
    (h : planOne env bmap (.dict fields) p = .ok (state, o)) :
    Planable env fields p ∧ Makes env fields p o ∧ ∃ fields', state = .dict fields' ∧
      ∀ u, u ≠ p.uuid → fields'.lookup u = fields.lookup u := by
  simp only [planOne, bind_eq_ok] at h
  obtain ⟨st, hattempt, count, hcount, b, hb, h⟩ := h
  have husable := usable_of_attempt hattempt hcount (number_of_atLeast hb)
  obtain ⟨st', hattempt', hcount', hnumber⟩ := attempt_of_usable husable
  obtain rfl := Except.ok.inj (hattempt'.symm.trans hattempt)
  obtain rfl := Except.ok.inj (hcount'.symm.trans hcount)
  rw [atLeast_of_number hnumber] at hb
  obtain rfl := Except.ok.inj hb
  split at h
  · rename_i hcapped
    obtain ⟨rfl, rfl⟩ := Prod.mk.inj (Except.ok.inj h)
    obtain ⟨fields', hreset, hframe⟩ := @lookup_reset fields p.uuid st'
    exact ⟨⟨husable, .inl hcapped⟩, ⟨hcapped, rfl⟩, fields', hreset, hframe⟩
  · rename_i hcapped
    rw [bind_eq_ok] at h
    obtain ⟨next, _, h⟩ := h
    cases hmode : p.permissionMode with
    | str perm =>
        simp only [hmode, pure_eq_ok] at h
        obtain ⟨rfl, rfl⟩ := Prod.mk.inj (Except.ok.inj h)
        exact ⟨⟨husable, .inr ⟨perm, hmode⟩⟩, ⟨Bool.eq_false_iff.mpr hcapped, perm, hmode, rfl⟩, _, rfl,
          fun u hu ↦ lookup_store rfl hu⟩
    | _ => simp [hmode] at h

end PlanOne

/-! ## The plan -/

section PlanAll

variable (env : Env) (bmap : List (Str × Value))

/-- A mode that is a text. -/
def modeText : Value → Str
  | .str perm => perm
  | _ => []

theorem entryFor_congr {fields fields' : List (Str × Value)} {u : Str}
    (h : fields'.lookup u = fields.lookup u) : entryFor fields' u = entryFor fields u := by
  rw [entryFor, entryFor, h]

theorem planable_congr {fields fields' : List (Str × Value)} {p : Interrupted}
    (h : fields'.lookup p.uuid = fields.lookup p.uuid) :
    Planable env fields' p ↔ Planable env fields p := by
  rw [Planable, Planable, capped, capped, entryFor_congr h]

theorem comment_quarantineLine {uuid : Str} (huuid : ∀ p ∈ uuid, isControl p = false)
    {count : Value} (hnumber : count.number.isSome = true) :
    Comment (quarantineLine env uuid count) := by
  have hcount : ∀ p ∈ count.text env.rt.repr, isControl p = false := by
    intro p hp
    have hrepr : p ∈ env.rt.repr count := by
      cases count with
      | str s => cases hnumber
      | _ => exact hp
    cases p with
    | half u => rfl
    | char c =>
        have hc := env.rt.no_control_repr count c hrepr
        by_contra hcontrol
        have hcases : c = '\t' ∨ c = '\n' ∨ c = '\x00' := by
          have himp : ¬c = '\t' → ¬c = '\n' → c = '\x00' := by
            simpa [isControl, or_assoc] using hcontrol
          tauto
        rcases hcases with rfl | rfl | rfl
        · exact absurd hc (by decide)
        · exact absurd hc (by decide)
        · exact absurd hc (by decide)
  have hstart : ∀ p ∈ str "# quarantined ", isControl p = false := by decide
  have hopen : ∀ p ∈ str " (", isControl p = false := by decide
  have hend : ∀ p ∈ str " attempts in <1h) — skipping", isControl p = false := by decide
  refine ⟨rfl, fun p hp ↦ ?_⟩
  simp only [quarantineLine, List.mem_append] at hp
  rcases hp with (((hp | hp) | hp) | hp) | hp
  · exact hstart p hp
  · exact huuid p hp
  · exact hopen p hp
  · exact hcount p hp
  · exact hend p hp

theorem number_of_planable {fields : List (Str × Value)} {p : Interrupted}
    (h : Planable env fields p) :
    (effectiveCount env.now (entryFor fields p.uuid)).number.isSome = true := by
  obtain ⟨st, _, _, hnumber⟩ := attempt_of_usable h.1
  exact hnumber

/-- The planner gets through a plan whose sessions it gets through, one by one. -/
theorem planAll_of_planable {plan : List Interrupted} {fields : List (Str × Value)}
    (h : ∀ p ∈ plan, Planable env fields p) (hnodup : (plan.map Interrupted.uuid).Nodup)
    (huuid : ∀ p ∈ plan, ∀ q ∈ p.uuid, isControl q = false) :
    ∃ state rows, (planAll env bmap (.dict fields) plan).result = .ok (state, rows) ∧
      (∀ line ∈ (planAll env bmap (.dict fields) plan).comments, Comment line) ∧
      rows.map Prod.fst = (plan.filter fun p ↦ !capped env fields p.uuid).map fun p ↦
        rowOf env p (modeText p.permissionMode) := by
  induction plan generalizing fields with
  | nil => exact ⟨.dict fields, [], rfl, by simp [planAll], rfl⟩
  | cons p plan ih =>
      rw [List.map_cons, List.nodup_cons] at hnodup
      have hp := h p List.mem_cons_self
      obtain ⟨⟨state, o⟩, hone⟩ := planOne_of_planable env bmap hp
      obtain ⟨_, hmakes, fields', rfl, hframe⟩ := makes_of_planOne env bmap hone
      have hlookup : ∀ q ∈ plan, fields'.lookup q.uuid = fields.lookup q.uuid := by
        intro q hq
        apply hframe
        exact fun heq ↦ hnodup.1 (heq ▸ List.mem_map.mpr ⟨q, hq, rfl⟩)
      obtain ⟨state, rows, hresult, hcomments, hrows⟩ := ih
        (fun q hq ↦ (planable_congr env (hlookup q hq)).mpr (h q (List.mem_cons_of_mem _ hq)))
        hnodup.2 fun q hq ↦ huuid q (List.mem_cons_of_mem _ hq)
      have hfilter : plan.filter (fun q ↦ !capped env fields' q.uuid) =
          plan.filter fun q ↦ !capped env fields q.uuid :=
        List.filter_congr fun q hq ↦ by rw [capped, capped, entryFor_congr (hlookup q hq)]
      rw [hfilter] at hrows
      cases o with
      | quarantined line =>
          obtain ⟨hcapped, rfl⟩ := hmakes
          refine ⟨state, rows, by simp [planAll, hone, hresult], ?_, by simp [hcapped, hrows]⟩
          simp only [planAll, hone, List.forall_mem_cons]
          exact ⟨comment_quarantineLine env (huuid p List.mem_cons_self)
            (number_of_planable env hp), hcomments⟩
      | planned row files =>
          obtain ⟨hcapped, perm, hmode, rfl⟩ := hmakes
          refine ⟨state, (rowOf env p perm, files) :: rows, ?_, ?_, ?_⟩
          · simp only [planAll, hone, hresult]
            rfl
          · simp only [planAll, hone]
            exact hcomments
          · simp [hcapped, hrows, hmode, modeText]

/-- A plan the planner gets through is one of sessions it gets through. -/
theorem planable_of_planAll {plan : List Interrupted} {fields : List (Str × Value)}
    (hnodup : (plan.map Interrupted.uuid).Nodup) {r : Value × List (Row × Files)}
    (h : (planAll env bmap (.dict fields) plan).result = .ok r) :
    ∀ p ∈ plan, Planable env fields p := by
  induction plan generalizing fields r with
  | nil => simp
  | cons p plan ih =>
      rw [List.map_cons, List.nodup_cons] at hnodup
      cases hone : planOne env bmap (.dict fields) p with
      | error e => simp [planAll, hone] at h
      | ok made =>
          obtain ⟨state, o⟩ := made
          obtain ⟨hp, _, fields', rfl, hframe⟩ := makes_of_planOne env bmap hone
          have hrest : ∃ r, (planAll env bmap (.dict fields') plan).result = .ok r := by
            cases o with
            | quarantined line =>
                simp only [planAll, hone] at h
                exact ⟨r, h⟩
            | planned row files =>
                simp only [planAll, hone] at h
                cases hresult : (planAll env bmap (.dict fields') plan).result with
                | error e => simp [hresult, Except.map] at h
                | ok r => exact ⟨r, rfl⟩
          obtain ⟨r, hr⟩ := hrest
          intro q hq
          rcases List.mem_cons.mp hq with rfl | hq
          · exact hp
          · have hlookup : fields'.lookup q.uuid = fields.lookup q.uuid := by
              apply hframe
              exact fun heq ↦ hnodup.1 (heq ▸ List.mem_map.mpr ⟨q, hq, rfl⟩)
            exact (planable_congr env hlookup).mp (ih hnodup.2 hr q hq)

theorem dict_of_planAll {state : Value} {p : Interrupted} {plan : List Interrupted}
    {r : Value × List (Row × Files)} (h : (planAll env bmap state (p :: plan)).result = .ok r) :
    ∃ fields, state = .dict fields := by
  cases state with
  | dict fields => exact ⟨fields, rfl⟩
  | _ => simp [planAll, planOne, attempt] at h

end PlanAll

/-! ## The batch -/

/-- The sessions a scan comes across; no two transcripts have one name. -/
structure Batch where
  sessions : List Session
  distinct : (sessions.map Session.uuid).Nodup

section Batch

variable (env : Env)

/-- A transcript of objects, one a line. -/
def WellFormed (s : Session) : Prop := ∃ recs, load s = .ok recs ∧ ∀ o ∈ recs, o.isDict = true

/-- The attempts say that the session keeps crashing. -/
def quarantined (attempts : Option Value) (uuid : Str) : Bool :=
  match attempts.getD (.dict []) with
  | .dict fields => capped env fields uuid
  | _ => false

def usableAttempts (attempts : Option Value) (uuid : Str) : Bool :=
  match attempts.getD (.dict []) with
  | .dict fields => usableEntry env.now (entryFor fields uuid)
  | _ => false

/-- The row of a session with its permission mode. -/
def sessionRow (s : Session) (perm : Str) : Row :=
  ⟨s.uuid, perm, fileOf env s.uuid ".name", fileOf env s.uuid ".notice", worktree env s,
    fileOf env s.uuid ".bridge"⟩

/-- The cycle ends in the normal way, and every session to be resumed that is in
order and not quarantined is launched by one row that says what it should. -/
structure Isolates (batch : Batch) (attempts bmap : Option Value) : Prop where
  normal : (cycle env batch.sessions attempts bmap).raised = none
  rows : ∀ s ∈ batch.sessions, env.resumes s = true → WellFormed s →
    quarantined env attempts s.uuid = false → ∃ recs perm, load s = .ok recs ∧
      lastPermissionMode recs = .ok (.str perm) ∧
      ((cycle env batch.sessions attempts bmap).launches.filter fun r ↦ decide (r.uuid = s.uuid)) =
        [sessionRow env s perm]

/-- The mode is a text without a separator. -/
def launchable (mode : Value) : Bool :=
  match mode with
  | .str perm => perm.all fun p ↦ !isControl p
  | _ => false

/-- No read of the session's files or of its attempts raises an error, and its
mode passes through the shell. -/
structure Harmless (attempts : Option Value) (s : Session) : Prop where
  passes : Passes env s
  usable : env.resumes s = true → usableAttempts env attempts s.uuid = true
  mode : env.resumes s = true → quarantined env attempts s.uuid = false →
    ∀ recs, load s = .ok recs → launchable (lastMode recs) = true

theorem plain_fileOf {uuid : Str} (huuid : Plain uuid) {extension : String}
    (hextension : ∀ p ∈ str extension, isControl p = false) :
    Plain (fileOf env uuid extension) := by
  have hslash : ∀ p ∈ str "/", isControl p = false := by decide
  unfold fileOf
  exact plain_append (plain_append (plain_append env.plain_rundir hslash (encodable_lit _))
    huuid.2.2 huuid.2.1) hextension (encodable_lit _)

theorem plain_mode {s : Session} {recs : List Value} (h : Scannable env s recs)
    (hmode : launchable (lastMode recs) = true) :
    ∃ perm, lastMode recs = .str perm ∧ Plain perm := by
  have hprints := h.mode
  have htruthy : (lastMode recs).truthy = true := by
    rw [lastMode]
    cases hlast : ((recs.map modeOf).filter Value.truthy).getLast? with
    | none => rfl
    | some v => exact (List.mem_filter.mp (List.mem_of_getLast? hlast)).2
  cases hperm : lastMode recs with
  | str perm =>
      rw [hperm] at hmode hprints htruthy
      refine ⟨perm, rfl, by simpa [Value.truthy] using htruthy, hprints, fun p hp ↦ ?_⟩
      simpa using List.all_eq_true.mp hmode p hp
  | _ => simp [hperm, launchable] at hmode

theorem plain_sessionRow {s : Session} {perm : Str} (hperm : Plain perm) :
    (sessionRow env s perm).Plain :=
  ⟨s.plain_uuid, hperm, plain_fileOf env s.plain_uuid (by decide),
    plain_fileOf env s.plain_uuid (by decide), plain_worktree env s,
    plain_fileOf env s.plain_uuid (by decide)⟩

variable {env}

theorem rowOf_tells {s : Session} {p : Interrupted} {recs : List Value}
    (h : EntryOf env s recs p) (perm : Str) : rowOf env p perm = sessionRow env s perm := by
  rw [rowOf, sessionRow, h.uuid, h.worktree]

theorem uuids_of_tells {sessions : List Session} {entries : List Interrupted}
    (h : List.Forall₂ (Tells env) sessions entries) :
    entries.map Interrupted.uuid = sessions.map Session.uuid :=
  (map_eq_of_forall₂ h fun _ _ ⟨_, _, hentry⟩ ↦ hentry.uuid.symm).symm

theorem scannable_of_passes {s : Session} (h : Passes env s) (hresumes : env.resumes s = true) :
    ∃ recs, Scannable env s recs := by
  obtain ⟨hscans, hworktree⟩ := Bool.and_eq_true_iff.mp hresumes
  simpa [hworktree] using h hscans

theorem wellFormed_of_scannable {s : Session} {recs : List Value} (h : Scannable env s recs) :
    WellFormed s :=
  ⟨recs, h.loads, fun o ho ↦ isDict_of_readable (h.records o ho)⟩

/-- What the scan of a harmless batch hands on. -/
theorem plan_of_passes {batch : Batch} (h : ∀ s ∈ batch.sessions, Passes env s) :
    ∃ plan, scan env batch.sessions = .ok plan ∧ (plan.map Interrupted.uuid).Nodup ∧
      (∀ s ∈ batch.sessions, env.resumes s = true → ∃ p ∈ plan, Tells env s p) ∧
      ∀ p ∈ plan, ∃ s ∈ batch.sessions, env.resumes s = true ∧ Tells env s p := by
  obtain ⟨plan, entries, hscan, hperm, htells⟩ := scan_of_passes env h
  refine ⟨plan, hscan, ?_, fun s hs hresumes ↦ ?_, fun p hp ↦ ?_⟩
  · rw [(hperm.map Interrupted.uuid).nodup_iff, uuids_of_tells htells]
    exact ((List.filter_sublist).map Session.uuid).nodup batch.distinct
  · obtain ⟨p, hp, htell⟩ := forall₂_exists_left htells.flip
      (List.mem_filter.mpr ⟨hs, hresumes⟩)
    exact ⟨p, hperm.mem_iff.mpr hp, htell⟩
  · obtain ⟨s, hs, htell⟩ := forall₂_exists_left htells (hperm.mem_iff.mp hp)
    obtain ⟨hs, hresumes⟩ := List.mem_filter.mp hs
    exact ⟨s, hs, hresumes, htell⟩

theorem cycle_nil {batch : Batch} {attempts bmap : Option Value}
    (hscan : scan env batch.sessions = .ok []) :
    cycle env batch.sessions attempts bmap = ⟨none, []⟩ := by
  rw [cycle, hscan]

/-- A plan the planner gets through is launched as it was made. -/
theorem cycle_of_planable {batch : Batch} {attempts bmap : Option Value}
    {fields : List (Str × Value)} (hattempts : attempts.getD (.dict []) = .dict fields)
    {p : Interrupted} {plan : List Interrupted} (hscan : scan env batch.sessions = .ok (p :: plan))
    (hnodup : ((p :: plan).map Interrupted.uuid).Nodup)
    (hplan : ∀ q ∈ p :: plan, Planable env fields q)
    (hsessions : ∀ q ∈ p :: plan, ∃ s ∈ batch.sessions, Tells env s q)
    (hplain : ∀ q ∈ p :: plan, capped env fields q.uuid = false →
      (rowOf env q (modeText q.permissionMode)).Plain) :
    cycle env batch.sessions attempts bmap =
      ⟨none, ((p :: plan).filter fun q ↦ !capped env fields q.uuid).map fun q ↦
        rowOf env q (modeText q.permissionMode)⟩ := by
  have huuid : ∀ q ∈ p :: plan, Plain q.uuid ∧ q.uuid.head? ≠ some (.char '#') := by
    intro q hq
    obtain ⟨s, _, _, _, hentry⟩ := hsessions q hq
    rw [hentry.uuid]
    exact ⟨s.plain_uuid, s.not_comment⟩
  obtain ⟨state, rows, hresult, hcomments, hrows⟩ := planAll_of_planable env (bridgeMap bmap) hplan
    hnodup fun q hq ↦ (huuid q hq).1.2.2
  have hlines : (planAll env (bridgeMap bmap) (.dict fields) (p :: plan)).lines =
      (planAll env (bridgeMap bmap) (.dict fields) (p :: plan)).comments ++
        (rows.map Prod.fst).map Row.line := by
    rw [Output.lines, hresult, List.map_map]
    rfl
  have hmem : ∀ r ∈ rows.map Prod.fst, ∃ q ∈ p :: plan, capped env fields q.uuid = false ∧
      r = rowOf env q (modeText q.permissionMode) := by
    intro r hr
    rw [hrows] at hr
    obtain ⟨q, hq, rfl⟩ := List.mem_map.mp hr
    obtain ⟨hq, hcapped⟩ := List.mem_filter.mp hq
    exact ⟨q, hq, by simpa using hcapped, rfl⟩
  have hlaunches : launches (planAll env (bridgeMap bmap) (.dict fields) (p :: plan)).lines =
      rows.map Prod.fst := by
    rw [hlines]
    apply launches_eq hcomments
    · intro r hr
      obtain ⟨q, hq, hcapped, rfl⟩ := hmem r hr
      exact hplain q hq hcapped
    · intro r hr
      obtain ⟨q, hq, _, rfl⟩ := hmem r hr
      exact (huuid q hq).2
  rw [cycle, hscan]
  simp only [planner, hattempts, hresult, hlaunches, hrows]

theorem isolates_of_harmless {batch : Batch} {attempts : Option Value} (bmap : Option Value)
    (h : ∀ s ∈ batch.sessions, Harmless env attempts s) : Isolates env batch attempts bmap := by
  obtain ⟨plan, hscan, hnodup, hplanned, hsessions⟩ := plan_of_passes fun s hs ↦ (h s hs).passes
  cases plan with
  | nil =>
      refine ⟨by rw [cycle_nil hscan], fun s hs hresumes ↦ ?_⟩
      obtain ⟨p, hp, _⟩ := hplanned s hs hresumes
      cases hp
  | cons p plan =>
      have hdict : ∃ fields, attempts.getD (.dict []) = .dict fields := by
        obtain ⟨s, hs, hresumes, _⟩ := hsessions p List.mem_cons_self
        have husable := (h s hs).usable hresumes
        unfold usableAttempts at husable
        split at husable
        · rename_i fields hfields
          exact ⟨fields, hfields⟩
        · cases husable
      obtain ⟨fields, hfields⟩ := hdict
      have hcapped : ∀ u, quarantined env attempts u = capped env fields u := fun u ↦ by
        rw [quarantined, hfields]
      have hmode : ∀ s ∈ batch.sessions, env.resumes s = true → ∀ q, Tells env s q →
          capped env fields q.uuid = false → ∃ perm, q.permissionMode = .str perm ∧ Plain perm := by
        rintro s hs hresumes q ⟨recs, hload, hentry⟩ hq
        rw [hentry.uuid, ← hcapped] at hq
        obtain ⟨recs', hscannable⟩ := scannable_of_passes (h s hs).passes hresumes
        obtain rfl := Except.ok.inj (hscannable.loads.symm.trans hload)
        rw [hentry.mode]
        exact plain_mode env hscannable ((h s hs).mode hresumes hq _ hload)
      have hplanable : ∀ q ∈ p :: plan, Planable env fields q := by
        intro q hq
        obtain ⟨s, hs, hresumes, htells⟩ := hsessions q hq
        have husable := (h s hs).usable hresumes
        simp only [usableAttempts, hfields] at husable
        obtain ⟨_, _, hentry⟩ := id htells
        refine ⟨by rw [hentry.uuid]; exact husable, ?_⟩
        cases hq : capped env fields q.uuid with
        | true => exact .inl rfl
        | false =>
            obtain ⟨perm, hperm, _⟩ := hmode s hs hresumes q htells hq
            exact .inr ⟨perm, hperm⟩
      have hplain : ∀ q ∈ p :: plan, capped env fields q.uuid = false →
          (rowOf env q (modeText q.permissionMode)).Plain := by
        intro q hq hcap
        obtain ⟨s, hs, hresumes, htells⟩ := hsessions q hq
        obtain ⟨perm, hperm, hplain⟩ := hmode s hs hresumes q htells hcap
        obtain ⟨_, _, hentry⟩ := htells
        rw [hperm, rowOf_tells hentry]
        exact plain_sessionRow env hplain
      have hcycle : cycle env batch.sessions attempts bmap = _ := cycle_of_planable hfields hscan
        hnodup hplanable (fun q hq ↦ by
          obtain ⟨s, hs, _, htells⟩ := hsessions q hq
          exact ⟨s, hs, htells⟩) hplain
      refine ⟨by rw [hcycle], fun s hs hresumes _ hquarantined ↦ ?_⟩
      obtain ⟨q, hq, htells⟩ := hplanned s hs hresumes
      obtain ⟨recs, hload, hentry⟩ := id htells
      rw [hcapped, ← hentry.uuid] at hquarantined
      obtain ⟨perm, hperm, _⟩ := hmode s hs hresumes q htells hquarantined
      obtain ⟨recs', hscannable⟩ := scannable_of_passes (h s hs).passes hresumes
      obtain rfl := Except.ok.inj (hscannable.loads.symm.trans hload)
      have hlast : lastPermissionMode recs' = .ok (.str perm) :=
        lastPermissionMode_eq_ok.mpr ⟨hscannable.records, by rw [← hperm, hentry.mode]⟩
      refine ⟨recs', perm, hload, hlast, ?_⟩
      rw [hcycle, List.filter_map, ← hentry.uuid]
      have hkey : ((p :: plan).filter fun q ↦ !capped env fields q.uuid).filter
          ((fun r ↦ decide (r.uuid = q.uuid)) ∘ fun q ↦
            rowOf env q (modeText q.permissionMode)) = [q] :=
        filter_key_eq (f := Interrupted.uuid)
          (((List.filter_sublist).map Interrupted.uuid).nodup hnodup)
          (List.mem_filter.mpr ⟨hq, by rw [hquarantined]; rfl⟩)
      rw [hkey, List.map_singleton, hperm, rowOf_tells hentry]
      rfl

theorem harmless_of_isolates {batch : Batch} {attempts bmap : Option Value}
    (h : Isolates env batch attempts bmap) : ∀ s ∈ batch.sessions, Harmless env attempts s := by
  have hnormal := h.normal
  cases hscan : scan env batch.sessions with
  | error e =>
      rw [cycle, hscan] at hnormal
      cases hnormal
  | ok plan =>
      have hpasses := all_passes_of_scan env hscan
      obtain ⟨plan', hscan', hnodup, hplanned, _⟩ := plan_of_passes hpasses
      obtain rfl := Except.ok.inj (hscan'.symm.trans hscan)
      cases plan' with
      | nil =>
          intro s hs
          have hskip : ¬env.resumes s = true := fun hresumes ↦ by
            obtain ⟨p, hp, _⟩ := hplanned s hs hresumes
            cases hp
          exact ⟨hpasses s hs, fun hresumes ↦ absurd hresumes hskip,
            fun hresumes ↦ absurd hresumes hskip⟩
      | cons p plan =>
          have hresult : ∃ r, (planner env attempts bmap (p :: plan)).result = .ok r := by
            simp only [cycle, hscan] at hnormal
            cases hr : (planner env attempts bmap (p :: plan)).result with
            | ok r => exact ⟨r, rfl⟩
            | error e => simp [hr] at hnormal
          obtain ⟨r, hr⟩ := hresult
          obtain ⟨fields, hfields⟩ := dict_of_planAll env (bridgeMap bmap) hr
          rw [planner, hfields] at hr
          have hplanable := planable_of_planAll env (bridgeMap bmap) hnodup hr
          intro s hs
          refine ⟨hpasses s hs, fun hresumes ↦ ?_, fun hresumes hquarantined recs hload ↦ ?_⟩
          · obtain ⟨q, hq, _, _, hentry⟩ := hplanned s hs hresumes
            have husable := (hplanable q hq).1
            rw [hentry.uuid] at husable
            simpa [usableAttempts, hfields] using husable
          · obtain ⟨recs', hscannable⟩ := scannable_of_passes (hpasses s hs) hresumes
            obtain rfl := Except.ok.inj (hscannable.loads.symm.trans hload)
            obtain ⟨recs, perm, hload', hmode, hrow⟩ := h.rows s hs hresumes
              (wellFormed_of_scannable hscannable) hquarantined
            obtain rfl := Except.ok.inj (hload.symm.trans hload')
            have hperm := (lastPermissionMode_eq_ok.mp hmode).2
            have hmem : sessionRow env s perm ∈
                (cycle env batch.sessions attempts bmap).launches := by
              have hfilter : sessionRow env s perm ∈
                  ((cycle env batch.sessions attempts bmap).launches.filter fun r ↦
                    decide (r.uuid = s.uuid)) := by
                rw [hrow]
                exact List.mem_singleton_self _
              exact (List.mem_filter.mp hfilter).1
            simp only [cycle, hscan] at hmem
            have hcontrol := plain_perm_of_launches hmem
            rw [← hperm]
            apply List.all_eq_true.mpr
            intro c hc
            rw [hcontrol c hc]
            rfl

/-- A batch is isolated exactly when none of its sessions does harm. -/
theorem isolates_iff_harmless (env : Env) (batch : Batch) (attempts bmap : Option Value) :
    Isolates env batch attempts bmap ↔ ∀ s ∈ batch.sessions, Harmless env attempts s :=
  ⟨harmless_of_isolates, isolates_of_harmless bmap⟩

end Batch

/-! ## A line that is no object -/

section NumberLine

def asciiRuntime : Runtime where
  isPrintable c := 32 ≤ c.toNat && c.toNat < 127
  repr _ := str "None"
  encodable_repr _ := encodable_lit _
  no_control_repr _ c hc := by
    have hall : ∀ p ∈ str "None", p.char?.all fun c ↦ 32 ≤ c.toNat := by decide
    simpa [Point.char?] using hall _ hc

def webEnv : Env where
  rt := asciiRuntime
  project := str "web"
  wtBase := str "/home/ada/web/.claude/worktrees"
  rundir := str "/home/ada/.cache/agent-devbox/resume"
  lookbackHours := 12
  now := 1760000000
  maxAttempts := 3
  encodable_project := encodable_lit _
  plain_wtBase := by decide
  plain_rundir := by decide

/-- A transcript with the one line `5`. -/
def numberSession : Session where
  cse := str "cse_a"
  uuid := str "393f13d9-0000-4000-8000-000000000001"
  ageHours := 1
  hasWorktree := true
  transcript := some [some (.int 5)]
  workflows := []
  plain_cse := by decide
  plain_uuid := by decide
  not_comment := by decide

def userSession : Session where
  cse := str "cse_b"
  uuid := str "393f13d9-0000-4000-8000-000000000002"
  ageHours := 1
  hasWorktree := true
  transcript := some [some (.dict [(str "type", .str (str "user")),
    (str "permissionMode", .str (str "plan"))])]
  workflows := []
  plain_cse := by decide
  plain_uuid := by decide
  not_comment := by decide

def mixedBatch : Batch where
  sessions := [numberSession, userSession]
  distinct := by decide

/-- The one line costs the other session its row. -/
theorem number_line_fails : ¬Isolates webEnv mixedBatch none none ∧
    WellFormed userSession ∧ webEnv.resumes userSession = true ∧
      quarantined webEnv none userSession.uuid = false ∧
      cycle webEnv mixedBatch.sessions none none = ⟨some .attributeError, []⟩ := by
  have hcycle : cycle webEnv mixedBatch.sessions none none = ⟨some .attributeError, []⟩ := rfl
  refine ⟨fun h ↦ ?_, ⟨_, rfl, by decide⟩, by decide, by decide +kernel, hcycle⟩
  have hnormal := h.normal
  rw [hcycle] at hnormal
  cases hnormal

end NumberLine

end RemoteDevbox.Resume.Scan
