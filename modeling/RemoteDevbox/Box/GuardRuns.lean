import RemoteDevbox.Box.GuardPass
import RemoteDevbox.Lib.Runs
import RemoteDevbox.Lib.Sightings

namespace RemoteDevbox.Box.Guard

open Py

/-!
# Pass after pass

The guard remembers in a file since when it has seen each runaway. The file may not
be written, and may be gone; each pass has its own surroundings and arguments.
-/

/-- The state that an exchange writes. -/
def written : Exchange Answer → Option State
  | ⟨.save state, saved⟩ => bif saved then some state else none
  | _ => none

/-- What a pass saw and did, as far as the file tells. -/
def sighting (machine : Machine) (t : History) : Sighting (ℤ × ℤ) Double where
  now := machine.now
  seen := (t.filterMap selected).map Member.key
  hit := (t.filterMap reported).map Member.key
  saved := !(t.filterMap written).isEmpty

/-- The file is gone, or holds no state. -/
def lost : Sighting (ℤ × ℤ) Double := ⟨.nan, [], [], true⟩

/-- The state file, and the passes so far. -/
structure Watch where
  file : State
  log : List (Sighting (ℤ × ℤ) Double)

inductive Turn where
  | pass (machine : Machine) (args : Args) (t : History) (r : Except Fault Unit)
  | lose

def guard : System Watch Turn where
  start s := s = ⟨[], []⟩
  next s e s' :=
    match e with
    | .pass machine args t r => (guardPass machine args s.file).Runs t r ∧
        s' = ⟨(t.filterMap written).getLastD s.file, s.log ++ [sighting machine t]⟩
    | .lose => s' = ⟨[], s.log ++ [lost]⟩

/-- The process has been the runaway for as long as the grace: since a pass, if the
kept ones have seen it without a break, and since now otherwise. -/
def Due (machine : Machine) (args : Args) (log : List (Sighting (ℤ × ℤ) Double)) (m : Member) :
    Prop :=
  ∃ since, (Sighting.Since log m.key since ∨
      since = machine.now ∧ ∀ moment, ¬Sighting.Since log m.key moment) ∧
    Double.le (.fin args.graceSec) (machine.now.sub machine.round since) = true

variable {machine : Machine} {args : Args}

/-! ## The state of a pass -/

theorem lookup_entry (state : State) (key k : ℤ × ℤ) (moment : Double) :
    ((key, moment) :: state : State).lookup k = if k = key then some moment else state.lookup k := by
  by_cases hk : k = key
  · simp [hk]
  · have hne : (k == key) = false := by simpa using hk
    rw [List.lookup_cons, hne, if_neg hk]

theorem lookup_replaced (fresh : State) (key k : ℤ × ℤ) (moment : Double) :
    (fresh.map fun p ↦ if p.1 = key then (key, moment) else p).lookup k =
      if k = key ∧ (fresh.lookup key).isSome then some moment else fresh.lookup k := by
  induction fresh with
  | nil => simp
  | cons p fresh ih =>
      obtain ⟨k', v⟩ := p
      rw [List.map_cons, lookup_entry, lookup_entry]
      by_cases hkey : k' = key
      · subst hkey
        by_cases hk : k = k' <;> simp [lookup_entry, hk, ih]
      · rw [if_neg hkey, lookup_entry, ih, if_neg (Ne.symm hkey)]
        by_cases hk : k = k'
        · subst hk
          simp [hkey]
        · simp [hk]

theorem lookup_appended (fresh : State) (key k : ℤ × ℤ) (moment : Double) :
    (fresh ++ [(key, moment)]).lookup k =
      (fresh.lookup k).or (if k = key then some moment else none) := by
  induction fresh with
  | nil => exact lookup_entry [] key k moment
  | cons p fresh ih =>
      obtain ⟨k', v⟩ := p
      rw [List.cons_append, lookup_entry, lookup_entry, ih]
      by_cases hk : k = k' <;> simp [hk]

theorem lookup_remember (fresh : State) (key k : ℤ × ℤ) (moment : Double) :
    (remember fresh key moment).lookup k = if k = key then some moment else fresh.lookup k := by
  unfold remember
  split
  · rename_i hsome
    rw [lookup_replaced]
    simp [hsome]
  · rename_i hnone
    rw [lookup_appended]
    by_cases hk : k = key
    · subst hk
      simp only [Bool.not_eq_true, Option.isSome_eq_false_iff, Option.isNone_iff_eq_none] at hnone
      simp [hnone]
    · simp [hk]

theorem lookup_reconcile (state : State) (ms : List Member) (k : ℤ × ℤ) :
    (reconcile machine args state ms).1.lookup k =
      if k ∈ ms.map Member.key then some ((state.lookup k).getD machine.now) else none := by
  have hfold : ∀ fresh : State, (ms.foldl
      (fun fresh m ↦ remember fresh m.key (firstSeen machine state m)) fresh).lookup k =
        if k ∈ ms.map Member.key then some ((state.lookup k).getD machine.now)
        else fresh.lookup k := by
    induction ms with
    | nil => simp
    | cons m ms ih =>
        intro fresh
        rw [List.foldl_cons, ih, lookup_remember]
        by_cases hrest : k ∈ ms.map Member.key
        · simp [hrest]
        · by_cases hk : k = m.key
          · simp [hk, firstSeen]
          · simp [hk]
  exact hfold []

theorem lookup_filter (state : State) (ks : List (ℤ × ℤ)) (k : ℤ × ℤ) :
    (state.filter fun p ↦ !ks.contains p.1).lookup k = if k ∈ ks then none else state.lookup k := by
  induction state with
  | nil => simp
  | cons p state ih =>
      obtain ⟨k', v⟩ := p
      rw [lookup_entry]
      by_cases hk' : k' ∈ ks
      · rw [List.filter_cons_of_neg (by simp [hk']), ih]
        by_cases hk : k = k'
        · simp [hk, hk']
        · simp [hk]
      · rw [List.filter_cons_of_pos (by simp [hk']), lookup_entry, ih]
        by_cases hk : k = k'
        · simp [hk, hk']
        · simp [hk]

/-! ## What a pass does -/

/-- The state is not written. -/
def Silent : History → Question → Prop := fun _ q ↦ ∀ state, q ≠ .save state

abbrev Any {ε α : Type} : Except ε α → History → Prop := fun _ _ ↦ True

theorem within_silent {α : Type} {p : Talk α} {Post : Except Fault α → History → Prop}
    {history : History} (hsilent : p.Within Silent Any history) (hp : p.Within Free Post history) :
    p.Within Free (fun r after ↦ Post r after ∧
      after.filterMap written = history.filterMap written) history := by
  induction p generalizing history with
  | done a | fail e => exact ⟨hp, rfl⟩
  | ask q next ih =>
      refine ⟨trivial, fun answer ↦ (ih answer (hsilent.2 answer) (hp.2 answer)).imp ?_⟩
      rintro r after ⟨hpost, hafter⟩
      refine ⟨hpost, hafter.trans ?_⟩
      have hq : written ⟨q, answer⟩ = none := by
        cases q with
        | save state => exact (hsilent.1 state rfl).elim
        | _ => rfl
      rw [List.filterMap_append, List.filterMap_cons, hq]
      simp

section

variable {history : History}

theorem silent_watch (cgroups : List String) :
    (watch machine args cgroups).Within Silent Any history := by
  induction cgroups generalizing history with
  | nil => exact trivial
  | cons cgroup rest ih =>
      unfold watch
      split
      · exact trivial
      · rw [Dialogue.within_bind, within_print]
        refine ⟨fun _ h ↦ (by cases h), fun answer ↦ ?_⟩
        rw [Dialogue.onward_ok, Dialogue.within_bind]
        refine ih.imp ?_
        rintro (_ | ms) after - <;> exact trivial
      · split
        · exact ih
        · rw [Dialogue.within_bind, within_print]
          exact ⟨fun _ h ↦ (by cases h), fun _ ↦ ih⟩

theorem silent_announce {line : Member → Line} (ms : List Member) :
    (announce line ms).Within Silent Any history := by
  induction ms generalizing history with
  | nil => exact trivial
  | cons m rest ih =>
      rw [announce, Dialogue.within_bind, within_print]
      exact ⟨fun _ h ↦ (by cases h), fun _ ↦ ih⟩

theorem silent_terminate (ms : List Member) : (terminate ms).Within Silent Any history := by
  induction ms generalizing history with
  | nil => exact trivial
  | cons m rest ih =>
      rw [terminate, Dialogue.within_bind, within_kill]
      refine ⟨fun _ h ↦ (by cases h), fun answer ↦ ?_⟩
      rw [Dialogue.onward_ok, Dialogue.within_bind]
      refine ih.imp ?_
      rintro (_ | hit) after - <;> exact trivial

theorem silent_escalate (ms : List Member) : (escalate ms).Within Silent Any history := by
  induction ms generalizing history with
  | nil => exact trivial
  | cons m rest ih =>
      rw [escalate, Dialogue.within_bind, within_kill]
      refine ⟨fun _ h ↦ (by cases h), fun alive ↦ ?_⟩
      rw [Dialogue.onward_ok]
      cases alive with
      | false => exact ih
      | true => exact ⟨fun _ h ↦ (by cases h), fun _ ↦ ih⟩

/-- SIGTERM goes to all, and the other signals to those it reached. -/
theorem within_reap_all (ms : List Member) :
    (reap ms).Within Free (fun result after ↦ ∃ hit sent, result = .ok hit ∧ hit.Sublist ms ∧
      sent.Sublist (hit.flatMap escalation) ∧
      Adds history after [] ((ms.map fun m ↦ (m.pid, .term)) ++ sent) [] ∧
      after.filterMap written = history.filterMap written) history := by
  rw [reap, Dialogue.within_bind]
  refine (within_silent (silent_terminate ms) (within_terminate ms)).imp ?_
  rintro result after ⟨⟨hit, rfl, hhit, hterm⟩, hwritten⟩
  rw [Dialogue.onward_ok, Dialogue.within_bind]
  refine (within_silent (silent_escalate hit) (within_escalate hit)).imp ?_
  rintro result last ⟨⟨rfl, sent, hsent, hadds⟩, hlast⟩
  exact ⟨hit, sent, rfl, hhit, hsent, hterm.trans hadds, hlast.trans hwritten⟩

/-- What is left of the fresh state when those that were hit are taken out. -/
def remaining (machine : Machine) (args : Args) (state : State) (candidates hit : List Member) :
    State :=
  (reconcile machine args state candidates).1.filter fun p ↦ !(hit.map Member.key).contains p.1

/-- A pass that acts: all that are due get SIGTERM, those it reaches are reported, and
the state is left without them. -/
structure Acted (machine : Machine) (args : Args) (state : State) (candidates : List Member)
    (t : History) (hit : List Member) (saved : Bool) : Prop where
  due : hit.Sublist (candidates.filter (isDue machine args state))
  reports : t.filterMap reported = hit
  signals : ∃ sent, sent.Sublist (hit.flatMap escalation) ∧ t.filterMap signalled =
    ((candidates.filter (isDue machine args state)).map fun m ↦ (m.pid, .term)) ++ sent
  writes : t.filterMap written =
    if saved then [remaining machine args state candidates hit] else []

/-- A pass that ends early or only looks signals nobody and writes nothing. -/
def Idle (t : History) : Prop := t.filterMap signalled = [] ∧ t.filterMap written = []

theorem within_told {c : Bool} {line : Line} {history : History}
    (hline : ∀ answer : Unit, selected ⟨.print line, answer⟩ = none ∧
      reported ⟨.print line, answer⟩ = none) :
    (printIf c line).Within Free (fun result after ↦ result = .ok () ∧
      Adds history after [] [] [] ∧ after.filterMap written = history.filterMap written)
      history := by
  cases c with
  | false => exact ⟨rfl, .refl history, rfl⟩
  | true =>
      refine ⟨trivial, fun answer ↦ ⟨rfl, ⟨[⟨.print line, answer⟩], rfl, ?_, rfl, ?_⟩, ?_⟩⟩
      · rw [List.filterMap_cons, (hline answer).1]
        rfl
      · rw [List.filterMap_cons, (hline answer).2]
        rfl
      · rw [List.filterMap_append]
        exact List.append_nil _

theorem guard_outcome (state : State) :
    (guardPass machine args state).Within Free (fun r t ↦
      (∀ fault, r = .error fault → Idle t) ∧
      (r = .ok () → args.dryRun = true → Idle t) ∧
      (r = .ok () → args.dryRun = false → ∃ candidates hit saved,
        t.filterMap selected = candidates ∧
        Acted machine args state candidates t hit saved)) [] := by
  rw [guardPass, Dialogue.within_bind]
  refine (within_silent (silent_watch _) (within_watch _)).imp ?_
  rintro (fault | ms) watched ⟨⟨hwatch, hms⟩, hwritten⟩
  · obtain ⟨more, rfl, -, hsignals, -⟩ := hwatch
    exact ⟨fun _ _ ↦ ⟨hsignals, hwritten⟩, (by rintro ⟨⟩), by rintro ⟨⟩⟩
  · rw [← hms ms rfl] at hwatch
    rw [Dialogue.onward_ok]
    change (if args.dryRun = true then _ else _ : Talk Unit).Within _ _ _
    cases hdry : args.dryRun with
    | true =>
        rw [if_pos rfl, Dialogue.within_bind]
        refine (within_silent (silent_announce _) (within_announce (fun _ _ ↦ ⟨rfl, rfl⟩) _)).imp ?_
        rintro result announced ⟨⟨rfl, hadds⟩, hannounced⟩
        rw [Dialogue.onward_ok, within_print]
        refine ⟨trivial, fun answer ↦ ⟨(by rintro _ ⟨⟩), fun _ _ ↦ ⟨?_, ?_⟩, by rintro _ ⟨⟩⟩⟩
        · obtain ⟨more, hmore, -, hsignals, -⟩ := hwatch.trans hadds
          rw [List.nil_append] at hmore
          subst hmore
          rw [List.filterMap_append, hsignals]
          rfl
        · rw [List.filterMap_append, hannounced, hwritten]
          rfl
    | false =>
        rw [if_neg (by simp), Dialogue.within_bind]
        refine (within_reap_all _).imp ?_
        rintro result reaped ⟨hit, sent, rfl, hhit, hsent, hreap, hreaped⟩
        rw [Dialogue.onward_ok, Dialogue.within_bind]
        refine (within_silent (silent_announce _)
          (within_announce (fun _ _ ↦ ⟨rfl, rfl⟩) hit)).imp ?_
        rintro result announced ⟨⟨rfl, hadds⟩, hannounced⟩
        rw [Dialogue.onward_ok, Dialogue.within_bind, within_save]
        refine ⟨trivial, fun saved ↦ ?_⟩
        rw [Dialogue.onward_ok, Dialogue.within_bind]
        refine (within_told fun _ ↦ ⟨rfl, rfl⟩).imp ?_
        rintro result told ⟨rfl, htold, htoldWritten⟩
        rw [Dialogue.onward_ok]
        refine (within_told fun _ ↦ ⟨rfl, rfl⟩).imp ?_
        rintro result after ⟨rfl, hafter, hafterWritten⟩
        refine ⟨(by rintro _ ⟨⟩), (by rintro _ ⟨⟩), fun _ _ ↦ ⟨ms, hit, saved, ?_⟩⟩
        have hsave : Adds announced (announced ++ [⟨.save
            (remaining machine args state ms hit), saved⟩]) [] [] [] := ⟨_, rfl, rfl, rfl, rfl⟩
        have hall := ((hwatch.trans hreap).trans hadds).trans (hsave.trans (htold.trans hafter))
        obtain ⟨more, hmore, hselected, hsignals, hreported⟩ := hall
        rw [List.nil_append] at hmore
        subst hmore
        refine ⟨by simpa using hselected, hhit, by simpa using hreported,
          ⟨sent, hsent, by simpa using hsignals⟩, ?_⟩
        rw [hafterWritten, htoldWritten, List.filterMap_append, hannounced, hreaped, hwritten]
        cases saved <;> rfl

end

/-! ## Runs of passes -/

/-- The file tells of each process since when it has been the runaway. -/
def Remembers (s : Watch) : Prop := ∀ k, s.file.lookup k = Sighting.memory s.log k

theorem lookup_remaining (state : State) (candidates hit : List Member) (k : ℤ × ℤ) :
    (remaining machine args state candidates hit).lookup k =
      if k ∈ candidates.map Member.key ∧ k ∉ hit.map Member.key
      then some ((state.lookup k).getD machine.now) else none := by
  rw [remaining, lookup_filter, lookup_reconcile]
  by_cases hhit : k ∈ hit.map Member.key
  · rw [if_pos hhit, if_neg fun h ↦ h.2 hhit]
  · rw [if_neg hhit]
    exact if_congr ⟨fun h ↦ ⟨h, hhit⟩, And.left⟩ rfl rfl

theorem Remembers.idle {s : Watch} (h : Remembers s) {t : History}
    (hwritten : t.filterMap written = []) :
    Remembers ⟨(t.filterMap written).getLastD s.file, s.log ++ [sighting machine t]⟩ := by
  intro k
  rw [Sighting.memory_snoc, Sighting.after_unsaved (by simp [sighting, hwritten]), hwritten]
  exact h k

theorem Remembers.acted {s : Watch} (h : Remembers s) {t : History} {candidates hit : List Member}
    {saved : Bool} (hselected : t.filterMap selected = candidates)
    (hacted : Acted machine args s.file candidates t hit saved) :
    Remembers ⟨(t.filterMap written).getLastD s.file, s.log ++ [sighting machine t]⟩ := by
  cases saved with
  | false => exact h.idle hacted.writes
  | true =>
      intro k
      have hsaved : (sighting machine t).saved = true := by simp [sighting, hacted.writes]
      have hkeeps : (sighting machine t).Keeps k ↔
          k ∈ candidates.map Member.key ∧ k ∉ hit.map Member.key := by
        rw [Sighting.Keeps, sighting, hselected, hacted.reports]
      rw [Sighting.memory_snoc, Sighting.after_saved hsaved, ← h k]
      change ((t.filterMap written).getLastD s.file).lookup k = _
      rw [hacted.writes]
      exact (lookup_remaining s.file candidates hit k).trans (if_congr hkeeps.symm rfl rfl)

theorem remembers_next {s s' : Watch} {e : Turn} (h : Remembers s) (hnext : guard.next s e s') :
    Remembers s' := by
  cases e with
  | pass machine args t r =>
      obtain ⟨hrun, rfl⟩ := hnext
      obtain ⟨hfails, hdry, hacts⟩ := (hrun.within (guard_outcome s.file)).2
      cases r with
      | error fault => exact h.idle (hfails fault rfl).2
      | ok u =>
          cases hdryRun : args.dryRun with
          | true => exact h.idle (hdry rfl hdryRun).2
          | false =>
              obtain ⟨candidates, hit, saved, hselected, hacted⟩ := hacts rfl hdryRun
              exact h.acted hselected hacted
  | lose =>
      obtain rfl := hnext
      intro k
      rw [Sighting.memory_snoc, Sighting.after_saved rfl]
      exact (if_neg fun hkeeps ↦ (List.not_mem_nil hkeeps.1)).symm

theorem remembers_of_reaches {s : Watch} (h : guard.Reaches (fun _ _ ↦ True) s) : Remembers s := by
  refine h.invariant ?_ fun _ _ _ hs _ hnext ↦ remembers_next hs hnext
  rintro s rfl k
  rfl

/-- A candidate is due exactly when it has been in sight for the grace. -/
theorem isDue_iff {s : Watch} (h : Remembers s) {m : Member} :
    isDue machine args s.file m = true ↔ Due machine args s.log m := by
  rw [isDue, firstSeen, h m.key]
  constructor
  · intro hdue
    cases hmemory : Sighting.memory s.log m.key with
    | some since =>
        rw [hmemory] at hdue
        exact ⟨since, .inl (Sighting.memory_eq_some.mp hmemory), hdue⟩
    | none =>
        rw [hmemory] at hdue
        refine ⟨machine.now, .inr ⟨rfl, fun moment hsince ↦ ?_⟩, hdue⟩
        rw [Sighting.memory_eq_some.mpr hsince] at hmemory
        cases hmemory
  · rintro ⟨since, hsince | ⟨rfl, hnever⟩, hdue⟩
    · rw [Sighting.memory_eq_some.mpr hsince]
      exact hdue
    · have hnone : Sighting.memory s.log m.key = none := by
        refine Option.eq_none_iff_forall_ne_some.mpr fun moment hmemory ↦ ?_
        exact hnever moment (Sighting.memory_eq_some.mp hmemory)
      rw [hnone]
      exact hdue

/-- In every run of passes, with files that are lost or not written in between: a pass
signals only processes that it selects and that have been its selection for the grace
without a break, and each of these gets SIGTERM. -/
theorem guard_keeps_grace {s : Watch} (h : guard.Reaches (fun _ _ ↦ True) s) {t : History}
    {r : Except Fault Unit} (hrun : (guardPass machine args s.file).Runs t r) :
    (∀ p ∈ t.filterMap signalled,
      ∃ m ∈ t.filterMap selected, m.pid = p.1 ∧ Due machine args s.log m) ∧
    (r = .ok () → args.dryRun = false → ∀ m ∈ t.filterMap selected, Due machine args s.log m →
      (m.pid, .term) ∈ t.filterMap signalled) := by
  have hremembers := remembers_of_reaches h
  obtain ⟨hfails, hdry, hacts⟩ := (hrun.within (guard_outcome s.file)).2
  change (∀ fault, r = .error fault → Idle t) at hfails
  have hidle : Idle t → ∀ p ∈ t.filterMap signalled,
      ∃ m ∈ t.filterMap selected, m.pid = p.1 ∧ Due machine args s.log m := by
    intro hidle p hp
    rw [hidle.1] at hp
    cases hp
  cases r with
  | error fault => exact ⟨hidle (hfails fault rfl), by rintro ⟨⟩⟩
  | ok u =>
      cases hdryRun : args.dryRun with
      | true => exact ⟨hidle (hdry rfl hdryRun), fun _ hno ↦ by cases hno⟩
      | false =>
          obtain ⟨candidates, hit, saved, hselected, hacted⟩ := hacts rfl hdryRun
          obtain ⟨sent, hsent, hsignals⟩ := hacted.signals
          rw [List.nil_append] at hselected hsignals
          have hvictim : ∀ m ∈ candidates.filter (isDue machine args s.file),
              ∃ m' ∈ t.filterMap selected, m'.pid = m.pid ∧ Due machine args s.log m' := by
            intro m hm
            obtain ⟨hcandidate, hdue⟩ := List.mem_filter.mp hm
            exact ⟨m, hselected ▸ hcandidate, rfl, (isDue_iff hremembers).mp hdue⟩
          refine ⟨fun p hp ↦ ?_, fun _ _ m hm hdue ↦ ?_⟩
          · rw [hsignals] at hp
            rcases List.mem_append.mp hp with hp | hp
            · obtain ⟨m, hm, rfl⟩ := List.mem_map.mp hp
              exact hvictim m hm
            · obtain ⟨m, hm, hp⟩ := List.mem_flatMap.mp (hsent.subset hp)
              have hpid : p.1 = m.pid := by
                simp only [escalation, List.mem_cons, List.not_mem_nil, or_false] at hp
                rcases hp with rfl | rfl <;> rfl
              rw [hpid]
              exact hvictim m (hacted.due.subset hm)
          · rw [hsignals]
            refine List.mem_append_left _ (List.mem_map.mpr ⟨m, ?_, rfl⟩)
            rw [hselected] at hm
            exact List.mem_filter.mpr ⟨hm, (isDue_iff hremembers).mpr hdue⟩

/-- The stalled daemon, and every signal arrives. -/
def stalledAt (now : ℚ) : Machine := { stalledBox ["/slice/daemon"] with now := .fin now }

def passAt (now : ℚ) (file : State) : History × Except Fault Unit :=
  Dialogue.play obliging [] (guardPass (stalledAt now) defaultArgs file)

/-- The watch after a first pass. -/
def seenOnce : Watch :=
  ⟨((passAt 400 []).1.filterMap written).getLastD [], [sighting (stalledAt 400) (passAt 400 []).1]⟩

theorem seenOnce_reached : guard.Reaches (fun _ _ ↦ True) seenOnce := by
  have hstart : guard.Reaches (fun _ _ ↦ True) (⟨[], []⟩ : Watch) := .of_start rfl
  exact hstart.snoc (e := .pass (stalledAt 400) defaultArgs _ _) trivial
    ⟨Dialogue.runs_play obliging [] _, rfl⟩

/-- Ten minutes later the build is signalled. -/
theorem build_outlasts_grace :
    (passAt 1000 seenOnce.file).1.filterMap signalled = [(7, .term), (7, .probe), (7, .kill)] ∧
    (∀ p ∈ (passAt 1000 seenOnce.file).1.filterMap signalled,
      ∃ m ∈ (passAt 1000 seenOnce.file).1.filterMap selected, m.pid = p.1 ∧
        Due (stalledAt 1000) defaultArgs seenOnce.log m) ∧
    ((passAt 1000 seenOnce.file).2 = .ok () → defaultArgs.dryRun = false →
      ∀ m ∈ (passAt 1000 seenOnce.file).1.filterMap selected,
        Due (stalledAt 1000) defaultArgs seenOnce.log m →
          (m.pid, .term) ∈ (passAt 1000 seenOnce.file).1.filterMap signalled) :=
  ⟨by decide +kernel,
    guard_keeps_grace seenOnce_reached (Dialogue.runs_play obliging [] _)⟩

end RemoteDevbox.Box.Guard
