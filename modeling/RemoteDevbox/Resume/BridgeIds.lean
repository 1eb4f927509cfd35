import RemoteDevbox.Resume.BridgeMap
import RemoteDevbox.Resume.Isolation

namespace RemoteDevbox.Resume

open Py

/-!
# The ids the bridge map keeps

A bridge id is matched by the snapshotter, again by the planner and, once it has
been written to a file and read back without its line ends, by the shell.
-/

/-- `bridge="$(tr -d '\r\n' < "${bridgefile}")"`, where it passes the check. The shell
drops NULs. -/
def readPointer (content : List Char) : Option (List Char) :=
  let bridge := content.filter fun c ↦ c != '\r' && c != '\n' && c != Char.ofNat 0
  if Regex.isMatch BRIDGE_RE bridge then some bridge else none

/-! ## Whole texts -/

/-- The pattern holds of the text from its start to its end. -/
def Whole (re : Regex) (s : Str) : Prop := ∃ cs, s = cs.map .char ∧ Regex.isMatch re cs = true

def EndsInNewline (s : Str) : Prop := s.getLast? = some (.char '\n')

instance : DecidablePred EndsInNewline := fun s ↦
  inferInstanceAs (Decidable (s.getLast? = some (.char '\n')))

section Whole

variable {re : Regex} {s : Str} {cs : List Char}

theorem mapM_char? : s.mapM Point.char? = some cs ↔ s = cs.map .char := by
  induction s generalizing cs with
  | nil => cases cs <;> simp
  | cons p s ih =>
      simp only [List.mapM_cons, bind, Option.bind_eq_some_iff, pure, Option.some.injEq]
      constructor
      · rintro ⟨c, hc, rest, hrest, rfl⟩
        cases p with
        | char d =>
            obtain rfl := Option.some.inj hc
            rw [ih.mp hrest, List.map_cons]
        | half u => cases hc
      · intro h
        cases cs with
        | nil => cases h
        | cons c cs =>
            rw [List.map_cons] at h
            obtain ⟨rfl, hs⟩ := List.cons.inj h
            exact ⟨c, rfl, cs, ih.mpr hs, rfl⟩

/-- What the pattern is matched with may end in a newline. -/
theorem whole_iff (hre : ∀ cs, Regex.isMatch re cs = true → '\n' ∉ cs) :
    Whole re s ↔ reMatch re s = true ∧ ¬EndsInNewline s := by
  constructor
  · rintro ⟨cs, rfl, hmatch⟩
    refine ⟨?_, fun hlast ↦ ?_⟩
    · rw [reMatch, mapM_char?.mpr rfl]
      exact (Bool.or_eq_true _ _).mpr (.inl hmatch)
    · obtain ⟨c, hc, heq⟩ := List.mem_map.mp (List.mem_of_getLast? hlast)
      rw [Point.char.inj heq] at hc
      exact hre cs hmatch hc
  · rintro ⟨hmatch, hlast⟩
    unfold reMatch at hmatch
    cases hchars : s.mapM Point.char? with
    | none =>
        rw [hchars] at hmatch
        cases hmatch
    | some cs =>
        rw [hchars] at hmatch
        obtain rfl := mapM_char?.mp hchars
        rcases (Bool.or_eq_true _ _).mp hmatch with h | h
        · exact ⟨cs, rfl, h⟩
        · refine absurd ?_ hlast
          rw [EndsInNewline, List.getLast?_map, beq_iff_eq.mp ((Bool.and_eq_true _ _).mp h).1]
          rfl

theorem isMatch_times {p : Char → Bool} {n : ℕ} {w : List Char} :
    Regex.isMatch (times n (.cls p)) w = true ↔ w.length = n ∧ ∀ c ∈ w, p c = true := by
  induction n generalizing w with
  | zero =>
      rw [times, Regex.isMatch_eps]
      constructor
      · rintro rfl
        simp
      · rintro ⟨h, _⟩
        exact List.length_eq_zero_iff.mp h
  | succ n ih =>
      simp only [times, Regex.isMatch_seq, Regex.isMatch_cls, ih]
      constructor
      · rintro ⟨_, b, rfl, ⟨c, hc, rfl⟩, hlength, hb⟩
        exact ⟨by simpa using hlength, List.forall_mem_cons.mpr ⟨hc, hb⟩⟩
      · rintro ⟨hlength, hall⟩
        cases w with
        | nil => simp at hlength
        | cons c w =>
            obtain ⟨hc, hw⟩ := List.forall_mem_cons.mp hall
            exact ⟨[c], w, rfl, ⟨c, hc, rfl⟩, by simpa using hlength, hw⟩

theorem bridge_chars (h : Regex.isMatch BRIDGE_RE cs = true) : ∀ c ∈ cs, bridgeChar c = true := by
  simp only [BRIDGE_RE, Regex.isMatch_seq, Regex.isMatch_lit, isMatch_times,
    Regex.isMatch_upTo_cls] at h
  obtain ⟨_, _, rfl, rfl, _, _, rfl, ⟨_, hfirst⟩, _, hmore⟩ := h
  have hstart : ∀ c ∈ "session_".toList, bridgeChar c = true :=
    List.all_eq_true.mp (by decide +kernel)
  intro c hc
  rcases List.mem_append.mp hc with hc | hc
  · exact hstart c hc
  · exact (List.mem_append.mp hc).elim (hfirst c) (hmore c)

theorem uuid_chars (h : Regex.isMatch UUID_RE cs = true) : ∀ c ∈ cs, uuidChar c = true := by
  simp only [UUID_RE, Regex.isMatch_seq, isMatch_times, Regex.isMatch_upTo_cls] at h
  obtain ⟨_, _, rfl, ⟨_, hfirst⟩, _, hmore⟩ := h
  exact fun c hc ↦ (List.mem_append.mp hc).elim (hfirst c) (hmore c)

theorem whole_bridge_iff : Whole BRIDGE_RE s ↔ reMatch BRIDGE_RE s = true ∧ ¬EndsInNewline s :=
  whole_iff fun _ h hmem ↦ absurd (bridge_chars h _ hmem) (by decide)

theorem whole_uuid_iff : Whole UUID_RE s ↔ reMatch UUID_RE s = true ∧ ¬EndsInNewline s :=
  whole_iff fun _ h hmem ↦ absurd (uuid_chars h _ hmem) (by decide)

/-- A whole id passes through the file as it is. -/
theorem readPointer_eq (h : Regex.isMatch BRIDGE_RE cs = true) : readPointer cs = some cs := by
  have hkept : (cs.filter fun c ↦ c != '\r' && c != '\n' && c != Char.ofNat 0) = cs := by
    refine List.filter_eq_self.mpr fun c hc ↦ ?_
    have hchar := bridge_chars h c hc
    have hne : ∀ d : Char, bridgeChar d = false → c ≠ d := by
      rintro d hd rfl
      rw [hd] at hchar
      cases hchar
    simp [hne '\r' (by decide), hne '\n' (by decide), hne (Char.ofNat 0) (by decide)]
  rw [readPointer, hkept]
  exact if_pos h

end Whole

/-! ## What a tick keeps -/

section Kept

variable {repr : Value → Str} {readFloat : Str → Option Double} {inst : Instance}
  {states : List Value} {existing : Value} {now ttlDays : ℚ} {merged : List (Str × Entry)}

/-- Of the records that tell of this session the last. -/
def LastOf (repr : Value → Str) (inst : Instance) (states : List Value) (p : Str × LiveEntry) : Prop :=
  ∃ earlier st later, states = earlier ++ st :: later ∧ liveEntry repr inst st = some p ∧
    ∀ st' ∈ later, ∀ q, liveEntry repr inst st' = some q → q.1 ≠ p.1

/-- An entry of the stored map that is not given up, of a session that is not live. -/
def Stored (repr : Value → Str) (readFloat : Str → Option Double) (inst : Instance)
    (states : List Value) (existing : Value) (now ttlDays : ℚ) (p : Str × Entry) : Prop :=
  (∃ rec, (p.1, rec) ∈ fieldsOf existing ∧ recordEntry repr readFloat rec = .ok (some p.2)) ∧
    expired now (ttlDays * 86400) p.2.seen = false ∧
    ∀ st ∈ states, ∀ q, liveEntry repr inst st = some q → q.1 ≠ p.1

/-- The ids are whole, and the planner and the reader of the file take the bridge as
it is. -/
structure Usable (env : Scan.Env) (merged : List (Str × Entry)) (p : Str × Entry) : Prop where
  uuid : Whole UUID_RE p.1
  bridge : Whole BRIDGE_RE p.2.bridge
  planned : Scan.pointer env (fieldsOf (mapVal merged)) p.1 = some p.2.bridge
  read : ∃ cs : List Char, p.2.bridge = cs.map .char ∧ readPointer cs = some cs

theorem lastOf_iff {uuid : Str} {e : LiveEntry} :
    LastOf repr inst states (uuid, e) ↔ liveAt repr inst states uuid = some e := by
  rw [liveAt_eq, List.lookup_eq_some_iff]
  constructor
  · rintro ⟨earlier, st, later, rfl, hst, hlater⟩
    refine ⟨(later.filterMap (liveEntry repr inst)).reverse,
      (earlier.filterMap (liveEntry repr inst)).reverse, ?_, fun q hq ↦ ?_⟩
    · simp [hst]
    · obtain ⟨st', hst', hq⟩ := List.mem_filterMap.mp (List.mem_reverse.mp hq)
      exact bne_iff_ne.mpr (hlater st' hst' q hq).symm
  · rintro ⟨before, after, hsplit, hbefore⟩
    have hforward := congrArg List.reverse hsplit
    rw [List.reverse_reverse, List.reverse_append, List.reverse_cons, List.append_assoc,
      List.singleton_append] at hforward
    obtain ⟨earlier, rest, rfl, _, hrest⟩ := List.filterMap_eq_append_iff.mp hforward
    obtain ⟨skipped, st, later, rfl, _, hst, hlater⟩ := List.filterMap_eq_cons_iff.mp hrest
    refine ⟨earlier ++ skipped, st, later, by simp, hst, fun st' hst' q hq ↦ ?_⟩
    have hmem : q ∈ before := by
      rw [← List.mem_reverse, ← hlater]
      exact List.mem_filterMap.mpr ⟨st', hst', hq⟩
    exact (bne_iff_ne.mp (hbefore q hmem)).symm

theorem liveAt_eq_none {uuid : Str} : liveAt repr inst states uuid = none ↔
    ∀ st ∈ states, ∀ q, liveEntry repr inst st = some q → q.1 ≠ uuid := by
  rw [liveAt_eq, lookup_eq_none, List.map_reverse, List.mem_reverse, List.mem_map]
  constructor
  · intro h st hst q hq heq
    exact h ⟨q, List.mem_filterMap.mpr ⟨st, hst, hq⟩, heq⟩
  · rintro h ⟨q, hq, heq⟩
    obtain ⟨st, hst, hq⟩ := List.mem_filterMap.mp hq
    exact h st hst q hq heq

theorem entryOf_eq_some {rec : Value} {e : Entry} :
    entryOf repr readFloat rec = some e ↔ recordEntry repr readFloat rec = .ok (some e) := by
  rw [entryOf]
  cases recordEntry repr readFloat rec with
  | error _ => simp [Except.toOption]
  | ok o => simp [Except.toOption]

/-- A session is kept because it is live, or because it is stored. -/
theorem mem_merge_iff (hloaded : ((fieldsOf existing).map Prod.fst).Nodup)
    (h : merge repr readFloat existing (liveEntries repr inst states) now ttlDays = .ok merged)
    {p : Str × Entry} : p ∈ merged ↔
      (∃ e, LastOf repr inst states (p.1, e) ∧ p.2 = e.seenAt now) ∨
        Stored repr readFloat inst states existing now ttlDays p := by
  have hlookup := lookup_merge h hloaded p.1
  have hmem : p ∈ merged ↔ merged.lookup p.1 = some p.2 :=
    ⟨fun hp ↦ lookup_of_mem (nodup_merge h hloaded) hp, mem_of_lookup⟩
  rw [hmem, hlookup]
  cases hlive : liveAt repr inst states p.1 with
  | some e =>
      rw [Option.map_some, Option.some_or, Option.some.injEq]
      constructor
      · rintro heq
        exact .inl ⟨e, lastOf_iff.mpr hlive, heq.symm⟩
      · rintro (⟨e', he', heq⟩ | ⟨_, _, hnone⟩)
        · rw [lastOf_iff, hlive] at he'
          rw [heq, Option.some.inj he']
        · rw [liveAt_eq_none.mpr hnone] at hlive
          cases hlive
  | none =>
      rw [Option.map_none, Option.none_or, Option.filter_eq_some_iff, Option.bind_eq_some_iff]
      constructor
      · rintro ⟨⟨rec, hrec, hentry⟩, hfresh⟩
        exact .inr ⟨⟨rec, mem_of_lookup hrec, entryOf_eq_some.mp hentry⟩, by simpa using hfresh,
          liveAt_eq_none.mp hlive⟩
      · rintro (⟨e, he, _⟩ | ⟨⟨rec, hrec, hentry⟩, hfresh, _⟩)
        · rw [lastOf_iff, hlive] at he
          cases he
        · exact ⟨⟨rec, lookup_of_mem hloaded hrec, entryOf_eq_some.mpr hentry⟩, by simpa using hfresh⟩

/-- The planner matches again what the snapshotter has matched. -/
theorem planned_of_valid (env : Scan.Env) (hnodup : (merged.map Prod.fst).Nodup)
    {p : Str × Entry} (hp : p ∈ merged) (hvalid : p.2.Valid) :
    Scan.pointer env (fieldsOf (mapVal merged)) p.1 = some p.2.bridge := by
  have hentry : (fieldsOf (mapVal merged)).lookup p.1 = some p.2.toVal := by
    rw [mapVal, fieldsOf, lookup_map Entry.toVal, lookup_of_mem hnodup hp]
    rfl
  rw [Scan.pointer, hentry]
  simp only [Entry.toVal, (item_toVal p.2).1, Value.textOr_str]
  exact if_pos hvalid

theorem usable_iff (env : Scan.Env) (hnodup : (merged.map Prod.fst).Nodup) {p : Str × Entry}
    (hp : p ∈ merged) (hvalid : p.2.Valid) :
    Usable env merged p ↔ Whole UUID_RE p.1 ∧ ¬EndsInNewline p.2.bridge := by
  constructor
  · intro h
    exact ⟨h.uuid, (whole_bridge_iff.mp h.bridge).2⟩
  · rintro ⟨huuid, hnewline⟩
    have hbridge := whole_bridge_iff.mpr ⟨hvalid, hnewline⟩
    obtain ⟨cs, hcs, hmatch⟩ := hbridge
    exact ⟨huuid, ⟨cs, hcs, hmatch⟩, planned_of_valid env hnodup hp hvalid, cs, hcs,
      readPointer_eq hmatch⟩

/-- Of every stored map and every collection of records. -/
theorem kept_ids_usable_iff (env : Scan.Env) (hloaded : ((fieldsOf existing).map Prod.fst).Nodup)
    (h : merge repr readFloat existing (liveEntries repr inst states) now ttlDays = .ok merged) :
    (∀ p ∈ merged, Usable env merged p) ↔
      (∀ p, LastOf repr inst states p → ¬EndsInNewline p.1 ∧ ¬EndsInNewline p.2.bridge) ∧
        ∀ p, Stored repr readFloat inst states existing now ttlDays p →
          Whole UUID_RE p.1 ∧ ¬EndsInNewline p.2.bridge := by
  have hnodup := nodup_merge h hloaded
  have husable : ∀ p ∈ merged, (Usable env merged p ↔
      Whole UUID_RE p.1 ∧ ¬EndsInNewline p.2.bridge) := fun p hp ↦
    usable_iff env hnodup hp (valid_merge h p hp)
  constructor
  · intro hall
    refine ⟨fun p hlast ↦ ?_, fun p hstored ↦ ?_⟩
    · have hmem : (p.1, p.2.seenAt now) ∈ merged :=
        (mem_merge_iff hloaded h).mpr (.inl ⟨p.2, hlast, rfl⟩)
      obtain ⟨huuid, hbridge⟩ := (husable _ hmem).mp (hall _ hmem)
      exact ⟨(whole_uuid_iff.mp huuid).2, hbridge⟩
    · have hmem := (mem_merge_iff hloaded h).mpr (.inr hstored)
      exact (husable _ hmem).mp (hall _ hmem)
  · rintro ⟨hlive, hstored⟩ p hp
    refine (husable p hp).mpr ?_
    rcases (mem_merge_iff hloaded h).mp hp with ⟨e, hlast, heq⟩ | hold
    · obtain ⟨huuid, hbridge⟩ := hlive _ hlast
      refine ⟨whole_uuid_iff.mpr ⟨(liveAt_valid (lastOf_iff.mp hlast)).1, huuid⟩, ?_⟩
      rw [heq]
      exact hbridge
    · exact hstored p hold

end Kept

/-- A map with a session that ran before. -/
def storedMap : Value :=
  mapVal [(str "0123456789abcdef", ⟨str "session_first1", str "/srv/site", .fin 1296000⟩)]

/-- Of a session that runs and one that was stored, the ids are usable. -/
theorem stored_ids_usable : ∃ merged, merge (fun _ ↦ []) (fun _ ↦ none) storedMap
      (liveEntries (fun _ ↦ []) projectInstance laterTick.states) laterTick.now 14 = .ok merged ∧
    merged.map Prod.fst = [str "0123456789abcdef", str "fedcba9876543210"] ∧
      ∀ p ∈ merged, Usable Scan.webEnv merged p := by
  have hloaded : ((fieldsOf storedMap).map Prod.fst).Nodup := List.nodup_singleton _
  have hok : (merge (fun _ ↦ []) (fun _ ↦ none) storedMap
      (liveEntries (fun _ ↦ []) projectInstance laterTick.states) laterTick.now 14).map
        (·.map Prod.fst) = .ok [str "0123456789abcdef", str "fedcba9876543210"] := by decide +kernel
  cases hmerged : merge (fun _ ↦ []) (fun _ ↦ none) storedMap
      (liveEntries (fun _ ↦ []) projectInstance laterTick.states) laterTick.now 14 with
  | error _ =>
      rw [hmerged] at hok
      cases hok
  | ok merged =>
      rw [hmerged] at hok
      refine ⟨merged, rfl, Except.ok.inj hok, (kept_ids_usable_iff Scan.webEnv hloaded hmerged).mpr
        ⟨fun p hlast ↦ ?_, fun p hstored ↦ ?_⟩⟩
      · have hlive := mem_of_lookup (lastOf_iff.mp hlast)
        rw [laterTick_live] at hlive
        have heq : p = (str "fedcba9876543210", ⟨str "session_third3", str "/srv/shop"⟩) :=
          List.mem_singleton.mp hlive
        rw [heq]
        exact ⟨by decide +kernel, by decide +kernel⟩
      · obtain ⟨⟨rec, hrec, hentry⟩, -⟩ := hstored
        obtain ⟨hid, rfl⟩ := Prod.mk.inj (List.mem_singleton.mp hrec)
        have hfirst : p.2 = ⟨str "session_first1", str "/srv/site", .fin 1296000⟩ :=
          (Option.some.inj (Except.ok.inj hentry)).symm
        rw [hid, hfirst]
        exact ⟨whole_uuid_iff.mpr ⟨by decide +kernel, by decide +kernel⟩, by decide +kernel⟩

/-- The map keeps an id with a newline behind it, and what is read back from the file is
another id. -/
theorem newline_kept : ∃ p, merge (fun _ ↦ []) (fun _ ↦ none) (.dict [])
      (liveEntries (fun _ ↦ []) projectInstance
        [sessionState "0123456789abcdef" "session_first1\n" (str "/srv/site")]) 100 14 = .ok [p] ∧
    p.2.bridge = str "session_first1\n" ∧ ¬Whole BRIDGE_RE p.2.bridge ∧
    Scan.pointer Scan.webEnv (fieldsOf (mapVal [p])) p.1 = some p.2.bridge ∧
    readPointer "session_first1\n".toList = some "session_first1".toList := by
  refine ⟨_, rfl, rfl, fun hwhole ↦ ?_, by decide +kernel, by decide +kernel⟩
  exact absurd (whole_bridge_iff.mp hwhole).2 (not_not.mpr (by decide +kernel))

end RemoteDevbox.Resume
