import RemoteDevbox.Box.RunawayGuard
import RemoteDevbox.Lib.Lists

namespace RemoteDevbox.Box.Guard

open Py

/-!
# Who a pass of the runaway guard acts on

A pass selects one process of each watched cgroup that is stalled. Cgroups that
contain one another share their members.
-/

/-! ## What a history tells -/

def selected : Exchange Answer → Option Member
  | ⟨.print (.runaway m), _⟩ => some m
  | _ => none

def signalled : Exchange Answer → Option (ℤ × Signal)
  | ⟨.kill pid signal, _⟩ => some (pid, signal)
  | _ => none

/-- The process a line says is killed, or would be. -/
def reported : Exchange Answer → Option Member
  | ⟨.print (.killed m), _⟩ => some m
  | ⟨.print (.wouldKill m), _⟩ => some m
  | _ => none

section

variable (machine : Machine) (args : Args)

/-- A member over both bars of a watched cgroup that is pinned and stalled. -/
structure Victim (cgroup : String) (m : Member) : Prop where
  watched : cgroup ∈ findCgroups machine args
  pinned : isPinned machine (readCount machine cgroup "memory.current")
    (readCount machine cgroup "memory.high") args.highRatio = .ok true
  stalled : (readPressureFull machine cgroup).lt args.pressureFullMin = false
  mem : m.pid ∈ memberPids machine cgroup
  read : readMember machine args cgroup m.pid = .ok (some m)
  floor : rssFloorKb args ≤ m.rssKb
  dominant : ∃ kb, dominance machine args ((readCount machine cgroup "memory.current").getD 0) =
    .ok kb ∧ kb ≤ m.rssKb
  unprotected : isProtected m.comm = false

/-- The first of the biggest victims that the scan of a cgroup comes across. -/
structure Runaway (cgroup : String) (m : Member) : Prop extends Victim machine args cgroup m where
  largest : ∃ seen truncated kb, readMembers machine args cgroup = .ok (seen, truncated) ∧
    dominance machine args ((readCount machine cgroup "memory.current").getD 0) = .ok kb ∧
    largest (seen.filter fun m ↦ decide (max (rssFloorKb args) kb ≤ m.rssKb) &&
      !isProtected m.comm) = some m

/-- In the exchanges of a pass, a process occurs once. -/
structure Once (t : History) : Prop where
  selections : ((t.filterMap selected).map Member.pid).Nodup
  signals : (t.filterMap signalled).Nodup
  reports : ((t.filterMap reported).map Member.pid).Nodup
  acted : ∀ p ∈ t.filterMap signalled, p.1 ∈ (t.filterMap selected).map Member.pid
  told : ∀ m ∈ t.filterMap reported, m ∈ t.filterMap selected
  victims : ∀ m ∈ t.filterMap selected, Victim machine args m.cgroup m

/-- The watched cgroups before the first one whose files end the pass. -/
def reached : List String :=
  (findCgroups machine args).takeWhile fun cgroup ↦ (assess machine args cgroup).isOk

/-- No process is the runaway of two cgroups. -/
def Unshared : Prop :=
  ∀ c ∈ reached machine args, ∀ c' ∈ reached machine args, ∀ m m', Runaway machine args c m →
    Runaway machine args c' m' → m.pid = m'.pid → c = c'

end

variable {machine : Machine} {args : Args}

/-! ## The candidate of one cgroup -/

theorem readMember_spec {cgroup : String} {pid : ℤ} {m : Member}
    (h : readMember machine args cgroup pid = .ok (some m)) :
    m.pid = pid ∧ m.cgroup = cgroup ∧ rssFloorKb args ≤ m.rssKb := by
  obtain ⟨pages, -, h⟩ := except_bind_eq_ok.mp h
  cases pages with
  | none => cases h
  | some pages =>
      dsimp only at h
      split at h
      · cases h
      · rename_i hfloor
        split at h
        · cases h
        · cases h
        · obtain ⟨ticks, -, h⟩ := except_bind_eq_ok.mp h
          cases ticks with
          | none => cases h
          | some ticks =>
              obtain rfl := Option.some.inj (Except.ok.inj h)
              exact ⟨rfl, rfl, not_lt.mp hfloor⟩

theorem mem_scanMembers {cgroup : String} {i : ℕ} {pids : List ℤ} {seen : List Member}
    {truncated : Bool} (h : scanMembers machine args cgroup i pids = .ok (seen, truncated))
    {m : Member} (hm : m ∈ seen) :
    m.pid ∈ pids ∧ readMember machine args cgroup m.pid = .ok (some m) := by
  induction pids generalizing i seen with
  | nil =>
      obtain ⟨rfl, -⟩ := Prod.mk.inj (Except.ok.inj h)
      cases hm
  | cons pid rest ih =>
      unfold scanMembers at h
      split at h
      · obtain ⟨rfl, -⟩ := Prod.mk.inj (Except.ok.inj h)
        cases hm
      · obtain ⟨found, hfound, h⟩ := except_bind_eq_ok.mp h
        obtain ⟨⟨members, _⟩, hrest, h⟩ := except_bind_eq_ok.mp h
        obtain ⟨rfl, rfl⟩ := Prod.mk.inj (Except.ok.inj h)
        rcases List.mem_append.mp hm with hm | hm
        · rw [Option.mem_toList] at hm
          rw [hm] at hfound
          obtain ⟨rfl, -⟩ := readMember_spec hfound
          exact ⟨List.mem_cons_self, hfound⟩
        · exact (ih hrest hm).imp (List.mem_cons_of_mem _) id

theorem assess_runaway {cgroup : String} (hwatched : cgroup ∈ findCgroups machine args)
    {verdict : Verdict} {m : Member} (h : assess machine args cgroup = .ok (verdict, some m)) :
    Runaway machine args cgroup m := by
  unfold assess at h
  dsimp only at h
  split at h
  · cases h
  · obtain ⟨pinned, hpinned, h⟩ := except_bind_eq_ok.mp h
    split at h
    · cases h
    · rename_i hstill
      split at h
      · cases h
      · rename_i hstalled
        obtain ⟨⟨seen, truncated⟩, hseen, h⟩ := except_bind_eq_ok.mp h
        obtain ⟨kb, hkb, h⟩ := except_bind_eq_ok.mp h
        dsimp only at h
        split at h
        · cases h
        · rename_i candidate hcandidate
          obtain ⟨-, hsame⟩ := Prod.mk.inj (Except.ok.inj h)
          obtain rfl := Option.some.inj hsame
          obtain ⟨hmem, hbars⟩ := List.mem_filter.mp (List.argmax_mem hcandidate)
          obtain ⟨hover, hfree⟩ := Bool.and_eq_true_iff.mp hbars
          obtain ⟨hpid, hread⟩ := mem_scanMembers hseen hmem
          have hover : max (rssFloorKb args) kb ≤ candidate.rssKb := of_decide_eq_true hover
          exact
            { watched := hwatched
              pinned := by rw [hpinned, show pinned = true by simpa using hstill]
              stalled := by simpa using hstalled
              mem := hpid
              read := hread
              floor := (le_max_left _ _).trans hover
              dominant := ⟨kb, hkb, (le_max_right _ _).trans hover⟩
              unprotected := by simpa using hfree
              largest := ⟨seen, truncated, kb, hseen, hkb, hcandidate⟩ }

theorem Runaway.assess_eq {cgroup : String} {m : Member} (h : Runaway machine args cgroup m) :
    assess machine args cgroup = .ok (.stalled, some m) := by
  obtain ⟨seen, truncated, kb, hseen, hkb, hlargest⟩ := h.largest
  have hpinned := h.pinned
  have hhigh : (readCount machine cgroup "memory.high").isNone = false := by
    cases hhigh : readCount machine cgroup "memory.high" with
    | none => simp [isPinned, hhigh] at hpinned
    | some high => rfl
  have hcandidate : selectCandidate seen (rssFloorKb args) kb = some m := hlargest
  unfold assess
  dsimp only
  rw [hhigh, hpinned, h.stalled]
  change (readMembers machine args cgroup >>= _) = _
  rw [hseen]
  change (dominance machine args _ >>= _) = _
  rw [hkb]
  dsimp only [bind, Except.bind]
  rw [hcandidate]
  rfl

/-! ## What each part of a pass adds to its history -/

/-- The exchanges after `before` select, signal and report this. -/
def Adds (before after : History) (selections : List Member) (signals : List (ℤ × Signal))
    (reports : List Member) : Prop :=
  ∃ more, after = before ++ more ∧ more.filterMap selected = selections ∧
    more.filterMap signalled = signals ∧ more.filterMap reported = reports

theorem Adds.refl (h : History) : Adds h h [] [] [] := ⟨[], by simp, rfl, rfl, rfl⟩

theorem Adds.trans {h h' h'' : History} {ms ms' rs rs' : List Member} {ss ss' : List (ℤ × Signal)}
    (hfirst : Adds h h' ms ss rs) (hrest : Adds h' h'' ms' ss' rs') :
    Adds h h'' (ms ++ ms') (ss ++ ss') (rs ++ rs') := by
  obtain ⟨more, rfl, rfl, rfl, rfl⟩ := hfirst
  obtain ⟨more', rfl, rfl, rfl, rfl⟩ := hrest
  exact ⟨more ++ more', by simp, by simp, by simp, by simp⟩

variable {allowed : History → Question → Prop} {history : History}

theorem within_print {Post : Except Fault Unit → History → Prop} {line : Line} :
    (print line).Within allowed Post history ↔ allowed history (.print line) ∧
      ∀ answer : Unit, Post (.ok answer) (history ++ [⟨.print line, answer⟩]) := Iff.rfl

theorem within_kill {Post : Except Fault Bool → History → Prop} {pid : ℤ} {signal : Signal} :
    (kill pid signal).Within allowed Post history ↔ allowed history (.kill pid signal) ∧
      ∀ answer : Bool, Post (.ok answer) (history ++ [⟨.kill pid signal, answer⟩]) := Iff.rfl

theorem within_save {Post : Except Fault Bool → History → Prop} {state : State} :
    (save state).Within allowed Post history ↔ allowed history (.save state) ∧
      ∀ answer : Bool, Post (.ok answer) (history ++ [⟨.save state, answer⟩]) := Iff.rfl

/-- Everything may be asked. -/
abbrev Free : History → Question → Prop := fun _ _ ↦ True

def candidateOf (machine : Machine) (args : Args) (cgroup : String) : Option Member :=
  match assess machine args cgroup with
  | .ok (_, candidate) => candidate
  | .error _ => none

/-- The candidates of the cgroups before the first one whose files end the pass. -/
def candidatesOf (machine : Machine) (args : Args) (cgroups : List String) : List Member :=
  (cgroups.takeWhile fun cgroup ↦ (assess machine args cgroup).isOk).filterMap
    (candidateOf machine args)

theorem within_watch (cgroups : List String) :
    (watch machine args cgroups).Within Free (fun result after ↦
      Adds history after (candidatesOf machine args cgroups) [] [] ∧
        ∀ ms, result = .ok ms → ms = candidatesOf machine args cgroups) history := by
  induction cgroups generalizing history with
  | nil => exact ⟨.refl history, by rintro _ ⟨⟩; rfl⟩
  | cons cgroup rest ih =>
      have hok : ∀ verdict candidate, assess machine args cgroup = .ok (verdict, candidate) →
          candidatesOf machine args (cgroup :: rest) =
            candidate.toList ++ candidatesOf machine args rest := by
        intro verdict candidate h
        rw [candidatesOf, List.takeWhile_cons_of_pos (by rw [h]; rfl), List.filterMap_cons,
          candidateOf, h]
        cases candidate <;> rfl
      unfold watch
      split
      · rename_i fault hfault
        have hnone : candidatesOf machine args (cgroup :: rest) = [] := by
          rw [candidatesOf, List.takeWhile_cons_of_neg (by rw [hfault]; exact Bool.false_ne_true)]
          rfl
        rw [hnone, Dialogue.within_throw]
        exact ⟨.refl history, by simp⟩
      · rename_i verdict candidate hcandidate
        rw [hok _ _ hcandidate, Dialogue.within_bind, within_print]
        refine ⟨trivial, fun answer ↦ ?_⟩
        rw [Dialogue.onward_ok, Dialogue.within_bind]
        refine ih.imp ?_
        rintro (_ | ms) after ⟨hadds, hms⟩
        · refine ⟨?_, by simp⟩
          exact Adds.trans ⟨_, rfl, rfl, rfl, rfl⟩ hadds
        · refine ⟨Adds.trans ⟨_, rfl, rfl, rfl, rfl⟩ hadds, ?_⟩
          rintro _ ⟨⟩
          rw [hms ms rfl]
          rfl
      · rename_i verdict hverdict
        rw [hok _ _ hverdict]
        split
        · exact ih
        · rw [Dialogue.within_bind, within_print]
          refine ⟨trivial, fun answer ↦ ih.imp ?_⟩
          rintro result after ⟨hadds, hms⟩
          exact ⟨Adds.trans ⟨_, rfl, rfl, rfl, rfl⟩ hadds, hms⟩

theorem within_announce {line : Member → Line}
    (hline : ∀ m, ∀ answer : Unit, selected ⟨.print (line m), answer⟩ = none ∧
      reported ⟨.print (line m), answer⟩ = some m) (ms : List Member) :
    (announce line ms).Within Free (fun result after ↦ result = .ok () ∧
      Adds history after [] [] ms) history := by
  induction ms generalizing history with
  | nil => exact ⟨rfl, .refl history⟩
  | cons m rest ih =>
      rw [announce, Dialogue.within_bind, within_print]
      refine ⟨trivial, fun answer ↦ ih.imp ?_⟩
      rintro result after ⟨rfl, hadds⟩
      refine ⟨rfl, @Adds.trans _ _ _ [] [] [m] rest [] [] ⟨_, rfl, ?_, rfl, ?_⟩ hadds⟩
      · rw [List.filterMap_cons, (hline m answer).1]
        rfl
      · rw [List.filterMap_cons, (hline m answer).2]
        rfl

theorem within_terminate (ms : List Member) :
    (terminate ms).Within Free (fun result after ↦ ∃ hit : List Member, result = .ok hit ∧
      hit.Sublist ms ∧ Adds history after [] (ms.map fun m ↦ (m.pid, .term)) []) history := by
  induction ms generalizing history with
  | nil => exact ⟨[], rfl, .slnil, .refl history⟩
  | cons m rest ih =>
      rw [terminate, Dialogue.within_bind, within_kill]
      refine ⟨trivial, fun answer ↦ ?_⟩
      rw [Dialogue.onward_ok, Dialogue.within_bind]
      refine ih.imp ?_
      rintro result after ⟨hit, rfl, hsub, hadds⟩
      have hadded := @Adds.trans history _ after [] [] [] [] [(m.pid, .term)] _
        ⟨[⟨.kill m.pid .term, answer⟩], rfl, rfl, rfl, rfl⟩ hadds
      cases answer with
      | true => exact ⟨m :: hit, rfl, hsub.cons_cons m, hadded⟩
      | false => exact ⟨hit, rfl, hsub.cons m, hadded⟩

/-- The signals that follow SIGTERM. -/
def escalation (m : Member) : List (ℤ × Signal) := [(m.pid, .probe), (m.pid, .kill)]

theorem within_escalate (ms : List Member) :
    (escalate ms).Within Free (fun result after ↦ result = .ok () ∧
      ∃ sent, sent.Sublist (ms.flatMap escalation) ∧ Adds history after [] sent []) history := by
  induction ms generalizing history with
  | nil => exact ⟨rfl, [], .slnil, .refl history⟩
  | cons m rest ih =>
      rw [escalate, Dialogue.within_bind, within_kill]
      refine ⟨trivial, fun alive ↦ ?_⟩
      have hprobe : Adds history (history ++ [⟨.kill m.pid .probe, alive⟩]) []
          [(m.pid, .probe)] [] := ⟨_, rfl, rfl, rfl, rfl⟩
      cases alive with
      | false =>
          refine ih.imp ?_
          rintro result after ⟨rfl, sent, hsub, hadds⟩
          exact ⟨rfl, (m.pid, .probe) :: sent, (hsub.cons _).cons_cons _, hprobe.trans hadds⟩
      | true =>
          refine ⟨trivial, fun answer ↦ ih.imp ?_⟩
          rintro result after ⟨rfl, sent, hsub, hadds⟩
          refine ⟨rfl, (m.pid, .probe) :: (m.pid, .kill) :: sent, (hsub.cons_cons _).cons_cons _, ?_⟩
          exact hprobe.trans (Adds.trans ⟨_, rfl, rfl, rfl, rfl⟩ hadds)

/-- All signals a list of victims can get. -/
def allSignals (ms : List Member) : List (ℤ × Signal) :=
  (ms.map fun m ↦ (m.pid, .term)) ++ ms.flatMap escalation

theorem within_reap (ms : List Member) :
    (reap ms).Within Free (fun result after ↦ ∃ hit : List Member, result = .ok hit ∧
      hit.Sublist ms ∧ ∃ sent, sent.Sublist (allSignals ms) ∧ Adds history after [] sent [])
      history := by
  rw [reap, Dialogue.within_bind]
  refine (within_terminate ms).imp ?_
  rintro result after ⟨hit, rfl, hhit, hterm⟩
  rw [Dialogue.onward_ok, Dialogue.within_bind]
  refine (within_escalate hit).imp ?_
  rintro result last ⟨rfl, sent, hsent, hadds⟩
  refine ⟨hit, rfl, hhit, _, ?_, hterm.trans hadds⟩
  exact (List.Sublist.refl _).append (hsent.trans (hhit.flatMap escalation))

/-! ## The pass -/

/-- Signals and reports are about the candidates, each in one place. -/
structure Traced (candidates : List Member) (before after : History) : Prop where
  adds : ∃ signals reports, Adds before after candidates signals reports ∧
    signals.Sublist (allSignals candidates) ∧ reports.Sublist candidates

theorem Traced.quiet {candidates : List Member} {before after : History} {e : Exchange Answer}
    (h : Traced candidates before after) (hselected : selected e = none)
    (hsignalled : signalled e = none) (hreported : reported e = none) :
    Traced candidates before (after ++ [e]) := by
  obtain ⟨signals, reports, ⟨more, rfl, hms, hss, hrs⟩, hsignals, hreports⟩ := h
  refine ⟨signals, reports, ⟨more ++ [e], by simp, ?_, ?_, ?_⟩, hsignals, hreports⟩
  · simp [hms, hselected]
  · simp [hss, hsignalled]
  · simp [hrs, hreported]

theorem allSignals_sublist {ms ms' : List Member} (h : ms.Sublist ms') :
    (allSignals ms).Sublist (allSignals ms') :=
  (h.map _).append (h.flatMap escalation)

theorem Adds.told {ms rs rs' : List Member} {ss : List (ℤ × Signal)} {h h' h'' : History}
    (hadds : Adds h h' ms ss rs) (hmore : Adds h' h'' [] [] rs') : Adds h h'' ms ss (rs ++ rs') := by
  simpa using hadds.trans hmore

theorem within_printIf {c : Bool} {line : Line} {candidates : List Member} {before : History}
    (h : Traced candidates before history)
    (hline : ∀ answer : Unit, selected ⟨.print line, answer⟩ = none ∧
      reported ⟨.print line, answer⟩ = none) :
    (printIf c line).Within Free (fun result after ↦ result = .ok () ∧
      Traced candidates before after) history := by
  cases c with
  | false => exact ⟨rfl, h⟩
  | true => exact ⟨trivial, fun answer ↦ ⟨rfl, h.quiet (hline answer).1 rfl (hline answer).2⟩⟩

theorem within_guardPass (state : State) :
    (guardPass machine args state).Within Free (fun _ after ↦
      Traced (candidatesOf machine args (findCgroups machine args)) history after) history := by
  rw [guardPass, Dialogue.within_bind]
  refine (within_watch _).imp ?_
  rintro (fault | ms) watched ⟨hwatch, hms⟩
  · exact ⟨[], [], hwatch, List.nil_sublist _, List.nil_sublist _⟩
  · obtain rfl := hms ms rfl
    have hdue : (reconcile machine args state
        (candidatesOf machine args (findCgroups machine args))).2.Sublist
          (candidatesOf machine args (findCgroups machine args)) := List.filter_sublist
    rw [Dialogue.onward_ok]
    generalize reconcile machine args state _ = outcome at hdue ⊢
    obtain ⟨fresh, due⟩ := outcome
    dsimp only
    split
    · rw [Dialogue.within_bind]
      refine (within_announce (fun _ _ ↦ ⟨rfl, rfl⟩) due).imp ?_
      rintro result announced ⟨rfl, hadds⟩
      rw [Dialogue.onward_ok, within_print]
      refine ⟨trivial, fun answer ↦ Traced.quiet ?_ rfl rfl rfl⟩
      exact ⟨[], due, by simpa using hwatch.told hadds, List.nil_sublist _, hdue⟩
    · rw [Dialogue.within_bind]
      refine (within_reap due).imp ?_
      rintro result reaped ⟨hit, rfl, hhit, sent, hsent, hreap⟩
      rw [Dialogue.onward_ok, Dialogue.within_bind]
      refine (within_announce (fun _ _ ↦ ⟨rfl, rfl⟩) hit).imp ?_
      rintro result announced ⟨rfl, hadds⟩
      have htraced : Traced (candidatesOf machine args (findCgroups machine args)) history
          announced := by
        refine ⟨sent, hit, ?_, hsent.trans (allSignals_sublist hdue), hhit.trans hdue⟩
        simpa using (hwatch.trans hreap).told hadds
      rw [Dialogue.onward_ok, Dialogue.within_bind, within_save]
      refine ⟨trivial, fun saved ↦ ?_⟩
      rw [Dialogue.onward_ok, Dialogue.within_bind]
      refine (within_printIf (htraced.quiet rfl rfl rfl) fun _ ↦ ⟨rfl, rfl⟩).imp ?_
      rintro result after ⟨rfl, htraced⟩
      rw [Dialogue.onward_ok]
      exact (within_printIf htraced fun _ ↦ ⟨rfl, rfl⟩).imp fun _ _ h ↦ h.2

/-! ## Once each -/

theorem reached_watched {cgroup : String} (h : cgroup ∈ reached machine args) :
    cgroup ∈ findCgroups machine args :=
  (List.takeWhile_sublist _).subset h

theorem nodup_reached : (reached machine args).Nodup := by
  refine (List.takeWhile_sublist _).nodup ?_
  exact (List.perm_insertionSort _ _).nodup_iff.mpr (List.nodup_dedup _)

theorem candidateOf_iff {cgroup : String} (hwatched : cgroup ∈ findCgroups machine args)
    {m : Member} : candidateOf machine args cgroup = some m ↔ Runaway machine args cgroup m := by
  constructor
  · intro h
    unfold candidateOf at h
    split at h
    · rename_i verdict candidate hassess
      rw [h] at hassess
      exact assess_runaway hwatched hassess
    · cases h
  · intro h
    rw [candidateOf, h.assess_eq]

theorem mem_candidatesOf {m : Member}
    (h : m ∈ candidatesOf machine args (findCgroups machine args)) :
    Victim machine args m.cgroup m := by
  obtain ⟨cgroup, hcgroup, hm⟩ := List.mem_filterMap.mp h
  have hrunaway := (candidateOf_iff (reached_watched hcgroup)).mp hm
  obtain ⟨-, rfl, -⟩ := readMember_spec hrunaway.read
  exact hrunaway.toVictim

theorem nodup_candidates_iff :
    ((candidatesOf machine args (findCgroups machine args)).map Member.pid).Nodup ↔
      Unshared machine args := by
  have hpids : (candidatesOf machine args (findCgroups machine args)).map Member.pid =
      (reached machine args).filterMap fun cgroup ↦
        (candidateOf machine args cgroup).map Member.pid := List.map_filterMap
  rw [hpids, nodup_filterMap_iff nodup_reached, Unshared]
  constructor
  · intro h c hc c' hc' m m' hm hm' hpid
    refine h c hc c' hc' m.pid ?_ ?_
    · rw [(candidateOf_iff (reached_watched hc)).mpr hm, Option.map_some]
    · rw [(candidateOf_iff (reached_watched hc')).mpr hm', Option.map_some, hpid]
  · intro h c hc c' hc' pid hpid hpid'
    obtain ⟨m, hm, hsame⟩ := Option.map_eq_some_iff.mp hpid
    obtain ⟨m', hm', hsame'⟩ := Option.map_eq_some_iff.mp hpid'
    exact h c hc c' hc' m m' ((candidateOf_iff (reached_watched hc)).mp hm)
      ((candidateOf_iff (reached_watched hc')).mp hm') (hsame.trans hsame'.symm)

theorem nodup_allSignals {ms : List Member} (h : (ms.map Member.pid).Nodup) :
    (allSignals ms).Nodup := by
  have hms : ms.Nodup := .of_map _ h
  have hpid : ∀ m ∈ ms, ∀ m' ∈ ms, m.pid = m'.pid → m = m' :=
    fun m hm m' hm' ↦ List.inj_on_of_nodup_map h hm hm'
  refine List.nodup_append.mpr ⟨?_, ?_, ?_⟩
  · exact nodup_map_of h fun m _ m' _ heq ↦ (Prod.mk.inj heq).1
  · refine List.nodup_flatMap.mpr ⟨fun m _ ↦ by simp [escalation], ?_⟩
    refine hms.imp_of_mem fun {m m'} hm hm' hne p hp hp' ↦ hne (hpid m hm m' hm' ?_)
    have hpids : ∀ {m : Member}, p ∈ escalation m → p.1 = m.pid := by
      intro m hp
      simp only [escalation, List.mem_cons, List.not_mem_nil, or_false] at hp
      rcases hp with rfl | rfl <;> rfl
    exact (hpids hp).symm.trans (hpids hp')
  · rintro p hp q hq rfl
    obtain ⟨m, -, rfl⟩ := List.mem_map.mp hp
    obtain ⟨m', -, hq⟩ := List.mem_flatMap.mp hq
    simp [escalation] at hq

theorem mem_allSignals {ms : List Member} {p : ℤ × Signal} (h : p ∈ allSignals ms) :
    p.1 ∈ ms.map Member.pid := by
  rcases List.mem_append.mp h with h | h
  · obtain ⟨m, hm, rfl⟩ := List.mem_map.mp h
    exact List.mem_map_of_mem hm
  · obtain ⟨m, hm, hp⟩ := List.mem_flatMap.mp h
    simp only [escalation, List.mem_cons, List.not_mem_nil, or_false] at hp
    rcases hp with rfl | rfl <;> exact List.mem_map_of_mem hm

/-- A process occurs once in the exchanges of a pass exactly when it is not the
runaway of two cgroups. -/
theorem guard_once_iff {state : State} {t : History} {r : Except Fault Unit}
    (hrun : (guardPass machine args state).Runs t r) :
    Once machine args t ↔ Unshared machine args := by
  obtain ⟨signals, reports, ⟨more, ht, hselected, hsignalled, hreported⟩, hsignals, hreports⟩ :=
    (hrun.within (within_guardPass state : Dialogue.Within _ _ [] _)).2
  obtain rfl : t = more := ht
  rw [← nodup_candidates_iff]
  constructor
  · intro h
    rw [← hselected]
    exact h.selections
  · intro h
    refine ⟨hselected ▸ h, ?_, ?_, ?_, ?_, ?_⟩
    · rw [hsignalled]
      exact hsignals.nodup (nodup_allSignals h)
    · rw [hreported]
      exact (hreports.map Member.pid).nodup h
    · rw [hsignalled, hselected]
      exact fun p hp ↦ mem_allSignals (hsignals.subset hp)
    · rw [hreported, hselected]
      exact fun m hm ↦ hreports.subset hm
    · rw [hselected]
      exact fun m hm ↦ mem_candidatesOf hm

/-- A developer's slice and, below it, a daemon whose only process is a build. -/
def stalledBox (watched : List String) : Machine where
  glob _ := watched
  isDir _ := true
  cgroupFile cgroup name :=
    if name = "memory.high" ∨ name = "memory.current" then some "36507222016\n".toList
    else if name = "memory.pressure" then some "some avg10=90.45\nfull avg10=87.32\n".toList
    else if cgroup = "/slice/daemon" then some "7\n".toList else some []
  walk cgroup := if cgroup = "/slice" then [("/slice", ["cgroup.procs"]),
    ("/slice/daemon", ["cgroup.procs"])] else [("/slice/daemon", ["cgroup.procs"])]
  procFile _ name :=
    if name = "statm" then .text "7000000 6236928 900".toList
    else if name = "comm" then .text "bun\n".toList
    else .text "7 (bun) R 1 7 7 0 -1 0 0 0 0 0 0 0 0 0 20 0 1 0 5000 0\n".toList
  late _ _ := false
  pageKb := 4
  readFloat text := (Decimal.read text).map fun d ↦ .fin d.val
  round := .fin
  now := .fin 1000

def defaultArgs : Args where
  dryRun := false
  graceSec := 120
  rssFloorMb := 2048
  dominancePercent := .fin 10
  highRatio := .fin (98 / 100)
  pressureFullMin := .fin 25
  cgroupGlob := ["/slice", "/slice/daemon"]

/-- The build has been the runaway for ten minutes. -/
def seenBuild : State := [((7, 5000), .fin 400)]

/-- Every signal arrives and the state is written. -/
def obliging (_ : History) : (q : Question) → Answer q
  | .print _ => ()
  | .kill _ _ => true
  | .save _ => true

def obligingRun (watched : List String) : History × Except Fault Unit :=
  Dialogue.play obliging [] (guardPass (stalledBox watched) defaultArgs seenBuild)

theorem obligingRun_runs (watched : List String) (h : (obligingRun watched).2.isOk = true) :
    (guardPass (stalledBox watched) defaultArgs seenBuild).Runs (obligingRun watched).1 (.ok ()) := by
  have hruns := Dialogue.runs_play obliging []
    (guardPass (stalledBox watched) defaultArgs seenBuild)
  cases hresult : (obligingRun watched).2 with
  | ok _ => exact hresult ▸ hruns
  | error fault =>
      rw [hresult] at h
      cases h

/-- With both watched, the build is selected, signalled and reported twice. -/
theorem nested_build_twice :
    ∃ t, (guardPass (stalledBox ["/slice", "/slice/daemon"]) defaultArgs seenBuild).Runs t (.ok ()) ∧
      t.filterMap signalled =
        [(7, .term), (7, .term), (7, .probe), (7, .kill), (7, .probe), (7, .kill)] ∧
      ¬Once (stalledBox ["/slice", "/slice/daemon"]) defaultArgs t := by
  have hplay : (obligingRun ["/slice", "/slice/daemon"]).2.isOk = true ∧
      (obligingRun ["/slice", "/slice/daemon"]).1.filterMap signalled =
        [(7, .term), (7, .term), (7, .probe), (7, .kill), (7, .probe), (7, .kill)] := by
    decide +kernel
  refine ⟨_, obligingRun_runs _ hplay.1, hplay.2, fun h ↦ ?_⟩
  have hnodup := h.signals
  rw [hplay.2] at hnodup
  exact absurd hnodup (by decide)

theorem lone_daemon_once :
    ∃ t, (guardPass (stalledBox ["/slice/daemon"]) defaultArgs seenBuild).Runs t (.ok ()) ∧
      (Once (stalledBox ["/slice/daemon"]) defaultArgs t ↔
        Unshared (stalledBox ["/slice/daemon"]) defaultArgs) := by
  have hruns := obligingRun_runs ["/slice/daemon"] (by decide +kernel)
  exact ⟨_, hruns, guard_once_iff hruns⟩

end RemoteDevbox.Box.Guard
