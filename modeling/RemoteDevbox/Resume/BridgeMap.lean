import RemoteDevbox.Lib.Py.Value

namespace RemoteDevbox.Resume

open Py

/-!
# The bridge map

The monitor of a Remote Control unit looks at the running sessions again and
again and keeps, for each of them, the bridge it had when it was last seen. An
entry is given up when it has not been seen for the time to live.
-/

/-- `n` times. -/
def times : ℕ → Regex → Regex
  | 0, _ => .eps
  | n + 1, r => .seq r (times n r)

def bridgeChar (c : Char) : Bool := Regex.isAlnum c || c == '_' || c == '-'

/-- `^session_[A-Za-z0-9_-]{6,128}$` -/
def BRIDGE_RE : Regex :=
  .seq (.lit "session_".toList) (.seq (times 6 (.cls bridgeChar)) (.upTo 122 (.cls bridgeChar)))

def uuidChar (c : Char) : Bool :=
  Regex.isDigit c || ('a' ≤ c && c ≤ 'f') || ('A' ≤ c && c ≤ 'F') || c == '-'

/-- `^[0-9a-fA-F-]{16,64}$` -/
def UUID_RE : Regex := .seq (times 16 (.cls uuidChar)) (.upTo 48 (.cls uuidChar))

def instanceChar (c : Char) : Bool := Regex.isAlnum c || c == '.' || c == '_' || c == '-'

/-- `^[A-Za-z0-9._-]{1,128}$` -/
def INSTANCE_RE : Regex := .seq (.cls instanceChar) (.upTo 127 (.cls instanceChar))

/-- An instance id that is not refused. -/
structure Instance where
  id : Str
  valid : reMatch INSTANCE_RE id = true

structure LiveEntry where
  bridge : Str
  cwd : Str

structure Entry where
  bridge : Str
  cwd : Str
  seen : Double

def Entry.toVal (e : Entry) : Value :=
  .dict [(str "bridge", .str e.bridge), (str "cwd", .str e.cwd), (str "seen", .float e.seen)]

/-- The map as it is written. -/
def mapVal (entries : List (Str × Entry)) : Value := .dict (entries.map fun p ↦ (p.1, p.2.toVal))

section Script

/- How Python writes a value that is no text, and reads a number from a text. -/
variable (repr : Value → Str) (readFloat : Str → Option Double)

/-- The item of a dictionary, or what stands for it. -/
def item (fields : List (Str × Value)) (k : String) : Value :=
  (fields.lookup (str k)).getD .none

/-- The session a state record tells of, if it belongs to the instance. -/
def liveEntry (inst : Instance) : Value → Option (Str × LiveEntry)
  | .dict st =>
      let tmux := (item st "tmux").textOr repr
      let uuid := (item st "sessionId").textOr repr
      let bridge := (item st "bridgeSessionId").textOr repr
      if (str "agent-rc-" ++ inst.id ++ str ":").isPrefixOf tmux && reMatch UUID_RE uuid &&
          reMatch BRIDGE_RE bridge then
        some (uuid, ⟨bridge, (item st "cwd").textOr repr⟩)
      else none
  | _ => none

def liveEntries (inst : Instance) (states : List Value) : List (Str × LiveEntry) :=
  (states.filterMap (liveEntry repr inst)).foldl (fun out p ↦ assign out p.1 p.2) []

/-- The age of an entry exceeds the time to live. -/
def expired (now ttl : ℚ) : Double → Bool
  | .fin seen => decide (now - seen > ttl)
  | .inf => false
  | .ninf => true
  | .nan => false

/-- A stored record as it is read again; only a number no float can hold is not
caught. -/
def recordEntry : Value → Py (Option Entry)
  | .dict rec =>
      let bridge := (item rec "bridge").textOr repr
      if reMatch BRIDGE_RE bridge then
        match ((item rec "seen").orElse (.int 0)).toFloat readFloat with
        | .ok seen => .ok (some ⟨bridge, (item rec "cwd").textOr repr, seen⟩)
        | .error .typeError => .ok none
        | .error .valueError => .ok none
        | .error e => .error e
      else .ok none
  | _ => .ok none

/-- The entries that are not given up. The keys of a dictionary are different. -/
def mergeExisting (now ttl : ℚ) : List (Str × Value) → Py (List (Str × Entry))
  | [] => .ok []
  | (uuid, rec) :: rest => do
      let entry ← recordEntry repr readFloat rec
      let out ← mergeExisting now ttl rest
      return ((entry.filter fun e ↦ !expired now ttl e.seen).map fun e ↦ (uuid, e)).toList ++ out

def merge (existing : Value) (live : List (Str × LiveEntry)) (now ttlDays : ℚ) :
    Py (List (Str × Entry)) := do
  let fields := match existing with
    | .dict fields => fields
    | _ => []
  let out ← mergeExisting repr readFloat now (ttlDays * 86400) fields
  return live.foldl (fun out p ↦ assign out p.1 ⟨p.2.bridge, p.2.cwd, .fin now⟩) out

/-- What the file holds, as far as it can be loaded. -/
abbrev Contents := Option Value

def encodableMap (entries : List (Str × Entry)) : Bool :=
  entries.all fun p ↦ encodable p.1 && encodable p.2.bridge && encodable p.2.cwd

/-- One tick: the new contents, unless an error ends it. -/
def main (inst : Instance) (ttlDays now : ℚ) (states : List Value) (contents : Contents) :
    Py Contents := do
  let existing := contents.getD (.dict [])
  let merged ← merge repr readFloat existing (liveEntries repr inst states) now ttlDays
  if (mapVal merged).eq existing then .ok contents
  else if encodableMap merged then .ok (some (mapVal merged))
  else .error .unicodeEncodeError

end Script

/-! ## One tick -/

section Tick

variable (repr : Value → Str) (readFloat : Str → Option Double)

/-- The entry of a uuid, as it is read from the file. -/
def entryAt (contents : Contents) (uuid : Str) : Option Entry :=
  match contents with
  | some (.dict fields) =>
      (fields.lookup uuid).bind fun rec ↦ (recordEntry repr readFloat rec).toOption.join
  | _ => none

/-- The live session of a uuid: the last record that tells of it. -/
def liveAt (inst : Instance) (states : List Value) (uuid : Str) : Option LiveEntry :=
  (liveEntries repr inst states).lookup uuid

/-- The contents after a tick. An error leaves the file as it was. -/
def after (inst : Instance) (ttlDays now : ℚ) (states : List Value) (contents : Contents) :
    Contents :=
  (main repr readFloat inst ttlDays now states contents).toOption.getD contents

/-- An entry with a pointer that is accepted. -/
def Entry.Valid (e : Entry) : Prop := reMatch BRIDGE_RE e.bridge = true

variable {repr readFloat} {inst : Instance} {states : List Value} {contents : Contents}
  {now ttlDays : ℚ}

theorem valid_of_recordEntry {rec : Value} {e : Entry}
    (h : recordEntry repr readFloat rec = .ok (some e)) : e.Valid := by
  unfold recordEntry at h
  split at h
  · dsimp only at h
    split at h
    · rename_i hmatch
      split at h
      · obtain rfl := Option.some.inj (Except.ok.inj h)
        exact hmatch
      all_goals cases h
    · cases h
  · cases h

theorem item_toVal (e : Entry) :
    item [(str "bridge", .str e.bridge), (str "cwd", .str e.cwd), (str "seen", .float e.seen)]
        "bridge" = .str e.bridge ∧
      item [(str "bridge", .str e.bridge), (str "cwd", .str e.cwd), (str "seen", .float e.seen)]
        "cwd" = .str e.cwd ∧
      item [(str "bridge", .str e.bridge), (str "cwd", .str e.cwd), (str "seen", .float e.seen)]
        "seen" = .float e.seen := by
  refine ⟨rfl, ?_, ?_⟩
  · rfl
  · rfl

theorem toFloat_seen (x : Double) :
    ((Value.float x).orElse (.int 0)).toFloat readFloat = .ok x := by
  unfold Value.orElse
  by_cases hx : x = .fin 0
  · subst hx
    have hfalsy : (Value.float (.fin 0)).truthy = false := rfl
    rw [hfalsy]
    exact Value.toFloat_zero readFloat
  · have htruthy : (Value.float x).truthy = true := by simpa [Value.truthy] using hx
    rw [if_pos htruthy]
    rfl

/-- A written entry is read back. -/
theorem recordEntry_toVal {e : Entry} (h : e.Valid) :
    recordEntry repr readFloat e.toVal = .ok (some e) := by
  obtain ⟨hbridge, hcwd, hseen⟩ := item_toVal e
  unfold recordEntry Entry.toVal
  simp only [hbridge, hcwd, hseen, Value.textOr_str, toFloat_seen]
  exact if_pos h

/-- What a record is read as, where no error comes up. -/
def entryOf (repr : Value → Str) (readFloat : Str → Option Double) (rec : Value) : Option Entry :=
  (recordEntry repr readFloat rec).toOption.join

theorem keys_mergeExisting {ttl : ℚ} {fields : List (Str × Value)} {out : List (Str × Entry)}
    (h : mergeExisting repr readFloat now ttl fields = .ok out) :
    (out.map Prod.fst).Sublist (fields.map Prod.fst) := by
  induction fields generalizing out with
  | nil =>
      obtain rfl := Except.ok.inj h
      simp
  | cons p rest ih =>
      simp only [mergeExisting, bind_eq_ok, pure_eq_ok, Except.ok.injEq] at h
      obtain ⟨entry, _, more, hmore, rfl⟩ := h
      cases entry.filter fun e ↦ !expired now ttl e.seen with
      | none => exact (ih hmore).trans (List.sublist_cons_self _ _)
      | some e => exact (ih hmore).cons_cons _

theorem mem_mergeExisting {ttl : ℚ} {fields : List (Str × Value)} {out : List (Str × Entry)}
    (h : mergeExisting repr readFloat now ttl fields = .ok out) {p : Str × Entry} (hp : p ∈ out) :
    ∃ rec, (p.1, rec) ∈ fields ∧ recordEntry repr readFloat rec = .ok (some p.2) := by
  induction fields generalizing out with
  | nil =>
      obtain rfl := Except.ok.inj h
      cases hp
  | cons q rest ih =>
      simp only [mergeExisting, bind_eq_ok, pure_eq_ok, Except.ok.injEq] at h
      obtain ⟨entry, hentry, more, hmore, rfl⟩ := h
      rcases List.mem_append.mp hp with hp | hp
      · obtain ⟨e, he, rfl⟩ := Option.map_eq_some_iff.mp (Option.mem_toList.mp hp)
        obtain rfl := (Option.filter_eq_some_iff.mp he).1
        exact ⟨q.2, List.mem_cons_self, hentry⟩
      · obtain ⟨rec, hrec, hread⟩ := ih hmore hp
        exact ⟨rec, List.mem_cons_of_mem _ hrec, hread⟩

/-- What the merge keeps of the stored map. -/
theorem lookup_mergeExisting {ttl : ℚ} {fields : List (Str × Value)} {out : List (Str × Entry)}
    (h : mergeExisting repr readFloat now ttl fields = .ok out)
    (hnodup : (fields.map Prod.fst).Nodup) (uuid : Str) :
    out.lookup uuid = ((fields.lookup uuid).bind (entryOf repr readFloat)).filter
      fun e ↦ !expired now ttl e.seen := by
  induction fields generalizing out with
  | nil =>
      obtain rfl := Except.ok.inj h
      rfl
  | cons p rest ih =>
      obtain ⟨key, rec⟩ := p
      rw [List.map_cons, List.nodup_cons] at hnodup
      simp only [mergeExisting, bind_eq_ok, pure_eq_ok, Except.ok.injEq] at h
      obtain ⟨entry, hentry, more, hmore, rfl⟩ := h
      have hrest := ih hmore hnodup.2
      have hof : entryOf repr readFloat rec = entry := by
        rw [entryOf, hentry]
        rfl
      by_cases hkey : uuid = key
      · subst hkey
        have hnone : rest.lookup uuid = none := lookup_eq_none.mpr hnodup.1
        rw [hnone] at hrest
        rw [List.lookup_append, hrest, List.lookup_cons_self, Option.bind_some, hof]
        cases entry.filter fun e ↦ !expired now ttl e.seen with
        | none => rfl
        | some e => simp
      · have hne : (uuid == key) = false := by simpa using hkey
        rw [List.lookup_append, List.lookup_cons, hne, ← hrest]
        cases entry.filter fun e ↦ !expired now ttl e.seen with
        | none => rfl
        | some e => simp [List.lookup_cons, hne]

theorem liveEntry_valid {st : Value} {p : Str × LiveEntry} (h : liveEntry repr inst st = some p) :
    reMatch UUID_RE p.1 = true ∧ reMatch BRIDGE_RE p.2.bridge = true := by
  unfold liveEntry at h
  split at h
  · dsimp only at h
    split at h
    · rename_i hok
      simp only [Bool.and_eq_true] at hok
      obtain rfl := Option.some.inj h
      exact ⟨hok.1.2, hok.2⟩
    · cases h
  · cases h

theorem nodup_liveEntries : ((liveEntries repr inst states).map Prod.fst).Nodup :=
  nodup_foldl_assign _ List.nodup_nil

/-- Of several records that tell of one uuid, the last counts. -/
theorem liveAt_eq (uuid : Str) : liveAt repr inst states uuid =
    (states.filterMap (liveEntry repr inst)).reverse.lookup uuid := by
  rw [liveAt, liveEntries, lookup_foldl_assign, List.lookup_nil, Option.or_none]

theorem liveAt_valid {uuid : Str} {e : LiveEntry} (h : liveAt repr inst states uuid = some e) :
    reMatch UUID_RE uuid = true ∧ reMatch BRIDGE_RE e.bridge = true := by
  rcases mem_foldl_assign (mem_of_lookup h) with hmem | hmem
  · cases hmem
  · obtain ⟨st, _, hst⟩ := List.mem_filterMap.mp hmem
    exact liveEntry_valid hst

/-- The entry that a live session gets. -/
def LiveEntry.seenAt (now : ℚ) (e : LiveEntry) : Entry := ⟨e.bridge, e.cwd, .fin now⟩

/-- The fields of what the file holds. -/
def fieldsOf : Value → List (Str × Value)
  | .dict fields => fields
  | _ => []

theorem merge_eq_ok {existing : Value} {live : List (Str × LiveEntry)} {merged : List (Str × Entry)} :
    merge repr readFloat existing live now ttlDays = .ok merged ↔
      ∃ out, mergeExisting repr readFloat now (ttlDays * 86400) (fieldsOf existing) = .ok out ∧
        merged = (live.map fun p ↦ (p.1, p.2.seenAt now)).foldl
          (fun out p ↦ assign out p.1 p.2) out := by
  have hfields : (match existing with | .dict fields => fields | _ => []) = fieldsOf existing := by
    cases existing <;> rfl
  unfold merge
  simp only [hfields, bind_eq_ok, pure_eq_ok, Except.ok.injEq, List.foldl_map]
  constructor
  · rintro ⟨out, hout, rfl⟩
    exact ⟨out, hout, rfl⟩
  · rintro ⟨out, hout, rfl⟩
    exact ⟨out, hout, rfl⟩

/-- What the merge makes of a uuid: a live session is taken up, any other keeps an
entry that is not given up. -/
theorem lookup_merge {existing : Value} {merged : List (Str × Entry)}
    (h : merge repr readFloat existing (liveEntries repr inst states) now ttlDays = .ok merged)
    (hnodup : ((fieldsOf existing).map Prod.fst).Nodup) (uuid : Str) :
    merged.lookup uuid = ((liveAt repr inst states uuid).map (·.seenAt now)).or
      ((((fieldsOf existing).lookup uuid).bind (entryOf repr readFloat)).filter
        fun e ↦ !expired now (ttlDays * 86400) e.seen) := by
  obtain ⟨out, hout, rfl⟩ := merge_eq_ok.mp h
  have hlive : ((liveEntries repr inst states).map fun p ↦ (p.1, p.2.seenAt now)).map Prod.fst =
      (liveEntries repr inst states).map Prod.fst := by
    rw [List.map_map]
    rfl
  rw [lookup_foldl_assign, lookup_reverse (by rw [hlive]; exact nodup_liveEntries), lookup_map,
    lookup_mergeExisting hout hnodup]
  rfl

theorem valid_merge {existing : Value} {merged : List (Str × Entry)}
    (h : merge repr readFloat existing (liveEntries repr inst states) now ttlDays = .ok merged) :
    ∀ p ∈ merged, p.2.Valid := by
  intro p hp
  obtain ⟨out, hout, rfl⟩ := merge_eq_ok.mp h
  rcases mem_foldl_assign hp with hp | hp
  · obtain ⟨rec, _, hrec⟩ := mem_mergeExisting hout hp
    exact valid_of_recordEntry hrec
  · obtain ⟨q, hq, rfl⟩ := List.mem_map.mp hp
    exact (liveAt_valid (lookup_of_mem nodup_liveEntries hq)).2

theorem nodup_merge {existing : Value} {merged : List (Str × Entry)}
    (h : merge repr readFloat existing (liveEntries repr inst states) now ttlDays = .ok merged)
    (hnodup : ((fieldsOf existing).map Prod.fst).Nodup) : (merged.map Prod.fst).Nodup := by
  obtain ⟨out, hout, rfl⟩ := merge_eq_ok.mp h
  exact nodup_foldl_assign _ ((keys_mergeExisting hout).nodup hnodup)

/-! ## A map that is not written again -/

theorem toFloat_of_number (readFloat : Str → Option Double) {w : Value} {x : Double} (h : w.number = some x) :
    (w.orElse (.int 0)).toFloat readFloat = .ok x ∨
      (w.orElse (.int 0)).toFloat readFloat = .error .overflowError := by
  unfold Value.orElse
  cases w with
  | bool b =>
      left
      obtain rfl := Option.some.inj h
      cases b
      · exact (Value.toFloat_zero readFloat).trans (by simp)
      · rfl
  | int z =>
      obtain rfl := Option.some.inj h
      by_cases hz : z = 0
      · subst hz
        left
        simpa using Value.toFloat_zero readFloat
      · have htruthy : (Value.int z).truthy = true := by simpa [Value.truthy] using hz
        rw [if_pos htruthy, Value.toFloat]
        split
        · exact .inl rfl
        · exact .inr rfl
  | float x =>
      obtain rfl := Option.some.inj h
      exact .inl (toFloat_seen x)
  | _ => cases h

/-- A record that equals a written entry is read as that entry. -/
theorem entryOf_of_eq {e : Entry} {w : Value} (hvalid : e.Valid) (h : e.toVal.eq w = true)
    (hread : ∃ o, recordEntry repr readFloat w = .ok o) : entryOf repr readFloat w = some e := by
  obtain ⟨gs, rfl, _, hfields⟩ := Value.eq_dict h
  obtain ⟨bridge, hbridge, heqBridge⟩ := Value.eqFields_lookup hfields (k := str "bridge")
    (v := .str e.bridge) (by simp)
  obtain ⟨cwd, hcwd, heqCwd⟩ := Value.eqFields_lookup hfields (k := str "cwd") (v := .str e.cwd)
    (by simp)
  obtain ⟨seen, hseen, heqSeen⟩ := Value.eqFields_lookup hfields (k := str "seen")
    (v := .float e.seen) (by simp)
  obtain rfl := Value.eq_str heqBridge
  obtain rfl := Value.eq_str heqCwd
  have hnumber := Value.eq_float heqSeen
  have hitems : item gs "bridge" = .str e.bridge ∧ item gs "cwd" = .str e.cwd ∧
      item gs "seen" = seen := by
    simp only [item, hbridge, hcwd, hseen, Option.getD_some, and_self]
  obtain ⟨o, ho⟩ := hread
  have hrun : recordEntry repr readFloat (.dict gs) = .ok (some e) := by
    unfold recordEntry at ho ⊢
    simp only [hitems.1, hitems.2.1, hitems.2.2, Value.textOr_str] at ho ⊢
    have hmatch : reMatch BRIDGE_RE e.bridge = true := hvalid
    rw [if_pos hmatch] at ho ⊢
    rcases toFloat_of_number readFloat hnumber with hfloat | hfloat
    · rw [hfloat]
    · rw [hfloat] at ho
      cases ho
  rw [entryOf, hrun]
  rfl

/-! ## What a tick leaves behind -/

/-- Contents whose records can all be read, and whose entries can be written again. -/
def Sound (repr : Value → Str) (readFloat : Str → Option Double) (contents : Contents) : Prop :=
  let fields := fieldsOf (contents.getD (.dict []))
  (fields.map Prod.fst).Nodup ∧ ∀ p ∈ fields, ∃ o, recordEntry repr readFloat p.2 = .ok o ∧
    ∀ e, o = some e → encodable p.1 = true ∧ encodable e.cwd = true

/-- State records whose live sessions work in a directory with a UTF-8 name. -/
def Plain (repr : Value → Str) (inst : Instance) (states : List Value) : Prop :=
  ∀ uuid e, liveAt repr inst states uuid = some e → encodable e.cwd = true

theorem entryAt_eq (contents : Contents) (uuid : Str) :
    entryAt repr readFloat contents uuid =
      ((fieldsOf (contents.getD (.dict []))).lookup uuid).bind (entryOf repr readFloat) := by
  cases contents with
  | none => rfl
  | some v => cases v <;> rfl

theorem mergeExisting_ok {ttl : ℚ} {fields : List (Str × Value)}
    (h : ∀ p ∈ fields, ∃ o, recordEntry repr readFloat p.2 = .ok o) :
    ∃ out, mergeExisting repr readFloat now ttl fields = .ok out := by
  induction fields with
  | nil => exact ⟨[], rfl⟩
  | cons p rest ih =>
      rw [List.forall_mem_cons] at h
      obtain ⟨entry, hentry⟩ := h.1
      obtain ⟨out, hout⟩ := ih h.2
      refine ⟨((entry.filter fun e ↦ !expired now ttl e.seen).map fun e ↦ (p.1, e)).toList ++ out, ?_⟩
      simp only [mergeExisting, hentry, hout, ok_bind, pure_eq_ok]

theorem encodable_merge {merged : List (Str × Entry)} (hsound : Sound repr readFloat contents)
    (hplain : Plain repr inst states)
    (h : merge repr readFloat (contents.getD (.dict [])) (liveEntries repr inst states) now
      ttlDays = .ok merged) :
    ∀ p ∈ merged, encodable p.1 = true ∧ encodable p.2.cwd = true := by
  intro p hp
  obtain ⟨out, hout, rfl⟩ := merge_eq_ok.mp h
  rcases mem_foldl_assign hp with hp | hp
  · obtain ⟨rec, hmem, hrec⟩ := mem_mergeExisting hout hp
    obtain ⟨o, ho, henc⟩ := hsound.2 _ hmem
    obtain rfl : some p.2 = o := Except.ok.inj (hrec.symm.trans ho)
    exact henc p.2 rfl
  · obtain ⟨q, hq, rfl⟩ := List.mem_map.mp hp
    have hlive : liveAt repr inst states q.1 = some q.2 := lookup_of_mem nodup_liveEntries hq
    exact ⟨encodable_of_reMatch (liveAt_valid hlive).1, hplain _ _ hlive⟩

/-- A tick on sound contents comes to its end. -/
theorem main_eq (now ttlDays : ℚ) (hsound : Sound repr readFloat contents)
    (hplain : Plain repr inst states) :
    ∃ merged, merge repr readFloat (contents.getD (.dict [])) (liveEntries repr inst states) now
        ttlDays = .ok merged ∧
      after repr readFloat inst ttlDays now states contents =
        if (mapVal merged).eq (contents.getD (.dict [])) then contents
        else some (mapVal merged) := by
  have hexisting : ∃ out, mergeExisting repr readFloat now (ttlDays * 86400)
      (fieldsOf (contents.getD (.dict []))) = .ok out :=
    mergeExisting_ok fun p hp ↦ (hsound.2 p hp).imp fun o ho ↦ ho.1
  obtain ⟨out, hout⟩ := hexisting
  obtain ⟨merged, hmerged⟩ : ∃ merged, merged =
      ((liveEntries repr inst states).map fun p ↦ (p.1, p.2.seenAt now)).foldl
        (fun out p ↦ assign out p.1 p.2) out := ⟨_, rfl⟩
  have hmerge := merge_eq_ok.mpr ⟨out, hout, hmerged⟩
  have hencodable : encodableMap merged = true := by
    refine List.all_eq_true.mpr fun p hp ↦ ?_
    obtain ⟨hkey, hcwd⟩ := encodable_merge hsound hplain hmerge p hp
    have hbridge := encodable_of_reMatch (valid_merge hmerge p hp)
    simp [hkey, hcwd, hbridge]
  refine ⟨merged, hmerge, ?_⟩
  have hmain : main repr readFloat inst ttlDays now states contents =
      .ok (if (mapVal merged).eq (contents.getD (.dict [])) then contents
        else some (mapVal merged)) := by
    simp only [main, hmerge, ok_bind, hencodable, if_true]
    split <;> rfl
  rw [after, hmain]
  rfl

theorem entryAt_mapVal {merged : List (Str × Entry)} (hvalid : ∀ p ∈ merged, p.2.Valid)
    (uuid : Str) : entryAt repr readFloat (some (mapVal merged)) uuid = merged.lookup uuid := by
  have hlookup : (merged.map fun p ↦ (p.1, p.2.toVal)).lookup uuid =
      (merged.lookup uuid).map Entry.toVal := lookup_map Entry.toVal merged uuid
  rw [entryAt_eq, Option.getD_some, mapVal, fieldsOf, hlookup]
  cases hmerged : merged.lookup uuid with
  | none => rfl
  | some e =>
      have hrecord : recordEntry repr readFloat e.toVal = .ok (some e) :=
        recordEntry_toVal (hvalid _ (mem_of_lookup hmerged))
      rw [Option.map_some, Option.bind_some, entryOf, hrecord]
      rfl

/-- A map that equals the stored one is read as the stored one. -/
theorem entryAt_of_eq {merged : List (Str × Entry)} (hsound : Sound repr readFloat contents)
    (hvalid : ∀ p ∈ merged, p.2.Valid) (hnodup : (merged.map Prod.fst).Nodup)
    (h : (mapVal merged).eq (contents.getD (.dict [])) = true) (uuid : Str) :
    entryAt repr readFloat contents uuid = merged.lookup uuid := by
  obtain ⟨gs, hgs, hlength, hfields⟩ := Value.eq_dict h
  have hsound' := hsound.2
  rw [entryAt_eq, hgs]
  rw [hgs] at hsound'
  simp only [fieldsOf] at hsound' ⊢
  cases hmerged : merged.lookup uuid with
  | none =>
      have hkeys : (merged.map fun p ↦ (p.1, p.2.toVal)).map Prod.fst = merged.map Prod.fst := by
        rw [List.map_map]
        rfl
      have hnone : gs.lookup uuid = none := by
        refine lookup_eq_none.mpr fun hin ↦ lookup_eq_none.mp hmerged ?_
        have hback := Value.keys_of_eqFields hlength hfields (by rwa [hkeys]) hin
        rwa [hkeys] at hback
      rw [hnone]
      rfl
  | some e =>
      have hmem := mem_of_lookup hmerged
      obtain ⟨w, hw, heq⟩ := Value.eqFields_lookup hfields (k := uuid) (v := e.toVal)
        (List.mem_map.mpr ⟨_, hmem, rfl⟩)
      obtain ⟨o, ho, _⟩ := hsound' _ (mem_of_lookup hw)
      rw [hw, Option.bind_some, entryOf_of_eq (hvalid _ hmem) heq ⟨o, ho⟩]

/-- What a uuid has in the map after a tick. -/
theorem entryAt_after (now ttlDays : ℚ) (hsound : Sound repr readFloat contents)
    (hplain : Plain repr inst states) (uuid : Str) :
    entryAt repr readFloat (after repr readFloat inst ttlDays now states contents) uuid =
      ((liveAt repr inst states uuid).map (·.seenAt now)).or
        ((entryAt repr readFloat contents uuid).filter
          fun e ↦ !expired now (ttlDays * 86400) e.seen) := by
  obtain ⟨merged, hmerge, hafter⟩ := main_eq now ttlDays hsound hplain
  have hlookup := lookup_merge hmerge hsound.1 uuid
  rw [← entryAt_eq] at hlookup
  rw [hafter, ← hlookup]
  split
  · rename_i heq
    exact entryAt_of_eq hsound (valid_merge hmerge) (nodup_merge hmerge hsound.1) heq uuid
  · exact entryAt_mapVal (valid_merge hmerge) uuid

theorem sound_after (hsound : Sound repr readFloat contents) (hplain : Plain repr inst states) :
    Sound repr readFloat (after repr readFloat inst ttlDays now states contents) := by
  obtain ⟨merged, hmerge, hafter⟩ := main_eq now ttlDays hsound hplain
  rw [hafter]
  split
  · exact hsound
  · have hkeys : (merged.map fun p ↦ (p.1, p.2.toVal)).map Prod.fst = merged.map Prod.fst := by
      rw [List.map_map]
      rfl
    refine ⟨?_, ?_⟩
    · rw [Option.getD_some, mapVal, fieldsOf, hkeys]
      exact nodup_merge hmerge hsound.1
    · intro p hp
      obtain ⟨q, hq, rfl⟩ := List.mem_map.mp hp
      refine ⟨_, recordEntry_toVal (valid_merge hmerge q hq), ?_⟩
      rintro e ⟨⟩
      exact encodable_merge hsound hplain hmerge q hq

/-- Whatever the file and the records hold, an entry of a session that is not
running stays as it is until its time is over. -/
theorem entryAt_kept (hloaded : ((fieldsOf (contents.getD (.dict []))).map Prod.fst).Nodup)
    {uuid : Str} {e : Entry} (hdead : liveAt repr inst states uuid = none)
    (hentry : entryAt repr readFloat contents uuid = some e)
    (hfresh : expired now (ttlDays * 86400) e.seen = false) :
    entryAt repr readFloat (after repr readFloat inst ttlDays now states contents) uuid =
      some e := by
  unfold after
  cases hmain : main repr readFloat inst ttlDays now states contents with
  | error _ => exact hentry
  | ok c =>
      simp only [main, bind_eq_ok] at hmain
      obtain ⟨merged, hmerge, hmain⟩ := hmain
      split at hmain
      · obtain rfl := Except.ok.inj hmain
        exact hentry
      · split at hmain
        · obtain rfl := Except.ok.inj hmain
          have hlookup := lookup_merge hmerge hloaded uuid
          rw [← entryAt_eq, hdead, hentry] at hlookup
          have hmerged : entryAt repr readFloat (some (mapVal merged)) uuid = merged.lookup uuid :=
            entryAt_mapVal (valid_merge hmerge) uuid
          rw [hlookup] at hmerged
          have hkept : (some e).filter (fun e ↦ !expired now (ttlDays * 86400) e.seen) = some e := by
            rw [Option.filter_some, hfresh]
            rfl
          rw [Option.map_none, Option.none_or, hkept] at hmerged
          exact hmerged
        · cases hmain

/-! ## Runs -/

/-- One look at the sessions. -/
structure Tick where
  now : ℚ
  states : List Value

/-- The contents after one tick after the other. -/
def run (repr : Value → Str) (readFloat : Str → Option Double) (inst : Instance) (ttlDays : ℚ)
    (contents : Contents) (ticks : List Tick) : Contents :=
  ticks.foldl (fun c tick ↦ after repr readFloat inst ttlDays tick.now tick.states c) contents

/-- The session as it was at the last tick that saw it. -/
def lastSeen (repr : Value → Str) (inst : Instance) (ticks : List Tick) (uuid : Str) :
    Option Entry :=
  ticks.reverse.findSome? fun tick ↦
    (liveAt repr inst tick.states uuid).map (·.seenAt tick.now)

theorem run_snoc (ticks : List Tick) (tick : Tick) :
    run repr readFloat inst ttlDays contents (ticks ++ [tick]) =
      after repr readFloat inst ttlDays tick.now tick.states
        (run repr readFloat inst ttlDays contents ticks) := by
  rw [run, List.foldl_append]
  rfl

theorem lastSeen_snoc (ticks : List Tick) (tick : Tick) (uuid : Str) :
    lastSeen repr inst (ticks ++ [tick]) uuid =
      ((liveAt repr inst tick.states uuid).map (·.seenAt tick.now)).or
        (lastSeen repr inst ticks uuid) := by
  rw [lastSeen, List.reverse_append, List.reverse_singleton, List.singleton_append,
    List.findSome?_cons]
  cases liveAt repr inst tick.states uuid <;> rfl

theorem sound_run (hsound : Sound repr readFloat contents) {ticks : List Tick}
    (hplain : ∀ tick ∈ ticks, Plain repr inst tick.states) :
    Sound repr readFloat (run repr readFloat inst ttlDays contents ticks) := by
  induction ticks using List.reverseRecOn with
  | nil => exact hsound
  | append_singleton ticks tick ih =>
      rw [run_snoc]
      refine sound_after (ih fun t ht ↦ hplain t (List.mem_append_left _ ht)) ?_
      exact hplain tick (List.mem_append_right _ List.mem_cons_self)

/-- What has expired stays expired. -/
theorem expired_mono {now' ttl : ℚ} (hle : now ≤ now') {x : Double}
    (h : expired now ttl x = true) : expired now' ttl x = true := by
  cases x with
  | fin seen =>
      simp only [expired, decide_eq_true_eq] at h ⊢
      exact lt_of_lt_of_le h (sub_le_sub_right hle seen)
  | ninf => rfl
  | inf => cases h
  | nan => cases h

theorem filter_filter_expired {now' ttl : ℚ} (hle : now ≤ now') (o : Option Entry) :
    (o.filter fun e ↦ !expired now ttl e.seen).filter (fun e ↦ !expired now' ttl e.seen) =
      o.filter fun e ↦ !expired now' ttl e.seen := by
  have hlater : ∀ x : Double, (!expired now ttl x && !expired now' ttl x) = !expired now' ttl x := by
    intro x
    cases hexpired : expired now ttl x with
    | true => simp [expired_mono hle hexpired]
    | false => rfl
  rw [Option.filter_filter]
  simp only [hlater]

/-- What is seen now has not expired. -/
theorem or_filter_seenAt (httl : 0 ≤ ttlDays) (live : Option LiveEntry) (o : Option Entry) :
    ((live.map (·.seenAt now)).or o).filter (fun e ↦ !expired now (ttlDays * 86400) e.seen) =
      (live.map (·.seenAt now)).or (o.filter fun e ↦ !expired now (ttlDays * 86400) e.seen) := by
  cases live with
  | none => rfl
  | some e =>
      have hfresh : expired now (ttlDays * 86400) (.fin now) = false := by
        have hnonneg : 0 ≤ ttlDays * 86400 := mul_nonneg httl (by decide)
        simpa [expired] using hnonneg
      rw [Option.map_some, Option.some_or, Option.some_or, Option.filter_some]
      simp [LiveEntry.seenAt, hfresh]

/-- The map follows the history: a uuid has the entry of the last tick that saw it,
or else the entry it started with, until that expires. -/
theorem entryAt_run (httl : 0 ≤ ttlDays) (hsound : Sound repr readFloat contents)
    {ticks : List Tick} {last : Tick}
    (htimes : (ticks ++ [last]).Pairwise fun s t ↦ s.now ≤ t.now)
    (hplain : ∀ tick ∈ ticks ++ [last], Plain repr inst tick.states) (uuid : Str) :
    entryAt repr readFloat (run repr readFloat inst ttlDays contents (ticks ++ [last])) uuid =
      ((lastSeen repr inst (ticks ++ [last]) uuid).or (entryAt repr readFloat contents uuid)).filter
        fun e ↦ !expired last.now (ttlDays * 86400) e.seen := by
  induction ticks using List.reverseRecOn generalizing last with
  | nil =>
      have hstep := entryAt_after last.now ttlDays hsound (hplain last (by simp)) uuid
      rw [run_snoc, lastSeen_snoc]
      have hempty : lastSeen repr inst [] uuid = none := rfl
      rw [hempty, Option.or_none, or_filter_seenAt httl]
      exact hstep
  | append_singleton ticks tick ih =>
      have htimes' := (List.pairwise_append.mp htimes).1
      have hle : tick.now ≤ last.now :=
        (List.pairwise_append.mp htimes).2.2 tick (by simp) last (by simp)
      have hplain' : ∀ t ∈ ticks ++ [tick], Plain repr inst t.states :=
        fun t ht ↦ hplain t (List.mem_append_left _ ht)
      rw [run_snoc, lastSeen_snoc, entryAt_after _ _ (sound_run hsound hplain') (hplain last (by simp)),
        ih htimes' hplain', filter_filter_expired hle, Option.or_assoc, or_filter_seenAt httl]

theorem lastSeen_eq_some {ticks : List Tick} {uuid : Str} {e : Entry}
    (h : lastSeen repr inst ticks uuid = some e) :
    ∃ before tick later live, ticks = before ++ tick :: later ∧
      liveAt repr inst tick.states uuid = some live ∧ e = live.seenAt tick.now ∧
      ∀ t ∈ later, liveAt repr inst t.states uuid = none := by
  obtain ⟨newer, tick, older, hsplit, htick, hnone⟩ := List.findSome?_eq_some_iff.mp h
  obtain ⟨live, hlive, rfl⟩ := Option.map_eq_some_iff.mp htick
  refine ⟨older.reverse, tick, newer.reverse, live, ?_, hlive, rfl, ?_⟩
  · rw [← List.reverse_reverse ticks, hsplit]
    simp
  · intro t ht
    exact Option.map_eq_none_iff.mp (hnone t (List.mem_reverse.mp ht))

/-- A session that was seen is seen last at that time or later. -/
theorem lastSeen_of_live {ticks : List Tick} (htimes : ticks.Pairwise fun s t ↦ s.now ≤ t.now)
    {tick : Tick} (hmem : tick ∈ ticks) {uuid : Str} {live : LiveEntry}
    (hlive : liveAt repr inst tick.states uuid = some live) :
    ∃ e now, lastSeen repr inst ticks uuid = some e ∧ e.seen = .fin now ∧ tick.now ≤ now := by
  cases hseen : lastSeen repr inst ticks uuid with
  | none =>
      have hnone := List.findSome?_eq_none_iff.mp hseen tick (List.mem_reverse.mpr hmem)
      rw [hlive] at hnone
      cases hnone
  | some e =>
      obtain ⟨before, newest, later, newer, rfl, hnewer, rfl, hlater⟩ := lastSeen_eq_some hseen
      refine ⟨_, newest.now, rfl, rfl, ?_⟩
      have hordered := (List.pairwise_append.mp htimes).2.2
      rcases List.mem_append.mp hmem with hbefore | hrest
      · exact hordered tick hbefore newest List.mem_cons_self
      · rcases List.mem_cons.mp hrest with rfl | hin
        · exact le_refl _
        · rw [hlater tick hin] at hlive
          cases hlive

end Tick

section History

variable (repr : Value → Str) (readFloat : Str → Option Double) (inst : Instance)

/-- With a time to live that is not negative and plain records at every tick, the
map holds the sessions that were seen within that time, each as it was seen
last; and on any contents a tick keeps what is not running, and takes up what is
where those contents are sound. -/
theorem bridge_map_follows {ttlDays : ℚ} (httl : 0 ≤ ttlDays) {ticks : List Tick} {last : Tick}
    (htimes : (ticks ++ [last]).Pairwise fun s t ↦ s.now ≤ t.now)
    (hplain : ∀ tick ∈ ticks ++ [last], Plain repr inst tick.states) (uuid : Str) :
    ((entryAt repr readFloat (run repr readFloat inst ttlDays none (ticks ++ [last])) uuid).isSome ↔
        ∃ tick ∈ ticks ++ [last], (liveAt repr inst tick.states uuid).isSome ∧
          last.now - tick.now ≤ ttlDays * 86400) ∧
      (∀ e, entryAt repr readFloat (run repr readFloat inst ttlDays none (ticks ++ [last])) uuid =
          some e →
        ∃ before tick later live, ticks ++ [last] = before ++ tick :: later ∧
          liveAt repr inst tick.states uuid = some live ∧ e = live.seenAt tick.now ∧
          ∀ t ∈ later, liveAt repr inst t.states uuid = none) ∧
      (∀ contents now states e, (∀ v, contents = some v → v.loaded = true) →
        liveAt repr inst states uuid = none → entryAt repr readFloat contents uuid = some e →
        expired now (ttlDays * 86400) e.seen = false →
        entryAt repr readFloat (after repr readFloat inst ttlDays now states contents) uuid =
          some e) ∧
      ∀ contents now states live, Sound repr readFloat contents → Plain repr inst states →
        liveAt repr inst states uuid = some live →
        entryAt repr readFloat (after repr readFloat inst ttlDays now states contents) uuid =
          some (live.seenAt now) := by
  have hempty : Sound repr readFloat none := ⟨List.nodup_nil, fun p hp ↦ by cases hp⟩
  have hrun : entryAt repr readFloat (run repr readFloat inst ttlDays none (ticks ++ [last])) uuid =
      (lastSeen repr inst (ticks ++ [last]) uuid).filter
        fun e ↦ !expired last.now (ttlDays * 86400) e.seen := by
    have hnone : entryAt repr readFloat none uuid = none := rfl
    rw [entryAt_run httl hempty htimes hplain, hnone, Option.or_none]
  refine ⟨?_, ?_, ?_, ?_⟩
  · rw [hrun]
    constructor
    · intro h
      obtain ⟨e, he⟩ := Option.isSome_iff_exists.mp h
      obtain ⟨hseen, hfresh⟩ := Option.filter_eq_some_iff.mp he
      obtain ⟨before, tick, later, live, hsplit, hlive, rfl, _⟩ := lastSeen_eq_some hseen
      refine ⟨tick, hsplit ▸ (by simp), by rw [hlive]; rfl, ?_⟩
      simpa [LiveEntry.seenAt, expired] using hfresh
    · rintro ⟨tick, hmem, hlive, hage⟩
      obtain ⟨live, hlive⟩ := Option.isSome_iff_exists.mp hlive
      obtain ⟨e, now, hseen, hnow, hle⟩ := lastSeen_of_live htimes hmem hlive
      have hfresh : expired last.now (ttlDays * 86400) e.seen = false := by
        rw [hnow, expired, decide_eq_false_iff_not, not_lt]
        exact (sub_le_sub_left hle last.now).trans hage
      rw [hseen, Option.filter_some, hfresh]
      rfl
  · intro e he
    rw [hrun] at he
    exact lastSeen_eq_some (Option.filter_eq_some_iff.mp he).1
  · intro contents now states e hloaded hdead hentry hfresh
    refine entryAt_kept ?_ hdead hentry hfresh
    cases contents with
    | none => exact List.nodup_nil
    | some v =>
        have hv := hloaded v rfl
        cases v with
        | dict fields => exact Value.nodup_of_loaded hv
        | _ => exact List.nodup_nil
  · intro contents now states live hsound hplain' hlive
    rw [entryAt_after now ttlDays hsound hplain', hlive, Option.map_some, Option.some_or]

end History

/-! ## Two sessions -/

def projectInstance : Instance := ⟨str "claude-ada-site", by decide +kernel⟩

/-- The record of a session of `projectInstance` that works in `cwd`. -/
def sessionState (uuid bridge : String) (cwd : Str) : Value :=
  .dict [(str "tmux", "agent-rc-claude-ada-site:@0.%0"), (str "sessionId", uuid),
    (str "bridgeSessionId", bridge), (str "cwd", .str cwd)]

/-- One of two sessions works in a directory whose name has half of a surrogate pair. -/
def brokenTick : Tick :=
  ⟨100, [sessionState "0123456789abcdef" "session_first1" (str "/srv/site"),
    sessionState "fedcba9876543210" "session_second" [.half 0]]⟩

/-- Two sessions. -/
def earlierTick : Tick :=
  ⟨100, [sessionState "0123456789abcdef" "session_first1" (str "/srv/site"),
    sessionState "fedcba9876543210" "session_second" (str "/srv/site")]⟩

/-- After fifteen days, one of them is seen again. -/
def laterTick : Tick :=
  ⟨100 + 15 * 86400, [sessionState "fedcba9876543210" "session_third3" (str "/srv/shop")]⟩

theorem earlierTick_live : liveEntries (fun _ ↦ []) projectInstance earlierTick.states =
    [(str "0123456789abcdef", ⟨str "session_first1", str "/srv/site"⟩),
      (str "fedcba9876543210", ⟨str "session_second", str "/srv/site"⟩)] := by
  rfl

theorem laterTick_live : liveEntries (fun _ ↦ []) projectInstance laterTick.states =
    [(str "fedcba9876543210", ⟨str "session_third3", str "/srv/shop"⟩)] := by
  rfl

theorem ticks_plain : ∀ tick ∈ [earlierTick] ++ [laterTick],
    Plain (fun _ ↦ []) projectInstance tick.states := by
  intro tick htick uuid e he
  simp only [List.singleton_append, List.mem_cons, List.not_mem_nil, or_false] at htick
  rcases htick with rfl | rfl
  · rw [liveAt, earlierTick_live] at he
    have hmem := mem_of_lookup he
    simp only [List.mem_cons, List.not_mem_nil, or_false, Prod.mk.injEq] at hmem
    rcases hmem with ⟨rfl, rfl⟩ | ⟨rfl, rfl⟩ <;> decide +kernel
  · rw [liveAt, laterTick_live] at he
    have hmem := mem_of_lookup he
    simp only [List.mem_singleton, Prod.mk.injEq] at hmem
    obtain ⟨rfl, rfl⟩ := hmem
    decide +kernel

/-- After the second tick the map holds the session that was seen again, and not the other. -/
theorem bridge_map_follows_later :
    (entryAt (fun _ ↦ []) (fun _ ↦ none)
        (run (fun _ ↦ []) (fun _ ↦ none) projectInstance 14 none ([earlierTick] ++ [laterTick]))
        (str "fedcba9876543210")).isSome ∧
      entryAt (fun _ ↦ []) (fun _ ↦ none)
        (run (fun _ ↦ []) (fun _ ↦ none) projectInstance 14 none ([earlierTick] ++ [laterTick]))
        (str "0123456789abcdef") = none := by
  have httl : (0 : ℚ) ≤ 14 := by decide
  have htimes : ([earlierTick] ++ [laterTick]).Pairwise fun s t ↦ s.now ≤ t.now := by
    decide +kernel
  have h := bridge_map_follows (fun _ ↦ []) (fun _ ↦ none) projectInstance httl htimes ticks_plain
  constructor
  · refine (h (str "fedcba9876543210")).1.mpr ⟨laterTick, by simp, ?_, by decide +kernel⟩
    rw [liveAt, laterTick_live]
    rfl
  · rw [← Option.not_isSome_iff_eq_none, (h (str "0123456789abcdef")).1]
    rintro ⟨tick, htick, hlive, hage⟩
    simp only [List.singleton_append, List.mem_cons, List.not_mem_nil, or_false] at htick
    rcases htick with rfl | rfl
    · exact absurd hage (by decide +kernel)
    · rw [liveAt, laterTick_live] at hlive
      cases hlive

/-- The tick cannot write the map, and the other session is not in it either. -/
theorem brokenTick_loses :
    (liveAt (fun _ ↦ []) projectInstance brokenTick.states (str "0123456789abcdef")).isSome ∧
      brokenTick.now - brokenTick.now ≤ 14 * 86400 ∧
      entryAt (fun _ ↦ []) (fun _ ↦ none)
        (run (fun _ ↦ []) (fun _ ↦ none) projectInstance 14 none [brokenTick])
        (str "0123456789abcdef") = none := by
  refine ⟨by rfl, by decide +kernel, by rfl⟩

end RemoteDevbox.Resume
