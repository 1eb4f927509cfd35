import RemoteDevbox.Spec.Yaml

namespace RemoteDevbox.Spec

open Js

/-!
# What the emitter takes

The emitter throws on a function, and on `undefined` anywhere but in a field.
Everything a parser produces is taken, and so is what the generator's own
operations make of such values.
-/

mutual

/-- Plain data throughout; a field may be `undefined`. -/
def emittable : Val → Bool
  | .undef => false
  | .fn _ => false
  | .arr xs => emittableList xs
  | .obj fs => emittableFields fs
  | _ => true

def emittableList : List Val → Bool
  | [] => true
  | x :: xs => emittable x && emittableList xs

def emittableFields : List (String × Val) → Bool
  | [] => true
  | (_, v) :: rest => (v.isUndef || emittable v) && emittableFields rest

end

/-- A value that a field may have. -/
def Clean (v : Val) : Prop := v = .undef ∨ emittable v = true

theorem isUndef_iff {v : Val} : v.isUndef = true ↔ v = .undef := by
  cases v <;> simp [Val.isUndef]

theorem emittableList_iff {xs : List Val} :
    emittableList xs = true ↔ ∀ x ∈ xs, emittable x = true := by
  induction xs with
  | nil => simp [emittableList]
  | cons x xs ih => simp [emittableList, ih]

theorem emittableFields_iff {fs : Fields} :
    emittableFields fs = true ↔ ∀ p ∈ fs, Clean p.2 := by
  induction fs with
  | nil => simp [emittableFields]
  | cons p fs ih => simp [emittableFields, ih, Clean, isUndef_iff]

theorem emittable_arr {xs : List Val} :
    emittable (.arr xs) = true ↔ ∀ x ∈ xs, emittable x = true := by
  simp [emittable, emittableList_iff]

theorem emittable_obj {fs : Fields} : emittable (.obj fs) = true ↔ ∀ p ∈ fs, Clean p.2 := by
  simp [emittable, emittableFields_iff]

/-! ## The emitter returns on these and on nothing else -/

mutual

theorem emitEntries_returns (pad : String) (fs : List (String × Val)) :
    Returns (emitEntries pad fs) ↔ emittableFields fs = true := by
  cases fs with
  | nil => simp [emitEntries, emittableFields]
  | cons p rest =>
      obtain ⟨k, v⟩ := p
      have hhere := emitEntry_returns pad k v
      have hrest := emitEntries_returns pad rest
      simp only [emitEntries, emittableFields, returns_bind, pure_eq_ok, returns_ok, and_true,
        Bool.and_eq_true, ← hhere, ← hrest]
      constructor
      · rintro ⟨here, hok, more, hmore⟩
        exact ⟨⟨here, hok⟩, more, hmore⟩
      · rintro ⟨⟨here, hok⟩, more, hmore⟩
        exact ⟨here, hok, more, hmore⟩

theorem emitEntry_returns (pad k : String) (v : Val) :
    Returns (emitEntry pad k v) ↔ (v.isUndef || emittable v) = true := by
  cases v with
  | arr xs =>
      cases xs with
      | nil => simp [emitEntry, emittable, emittableList, Val.isUndef]
      | cons x xs =>
          have hlist := emitList_returns (pad ++ "  ") (x :: xs)
          simp only [emitEntry, returns_bind, pure_eq_ok, returns_ok, and_true, emittable,
            Val.isUndef, Bool.false_or, ← hlist]
          exact Iff.rfl
  | obj fs =>
      have hfields := emitEntries_returns (pad ++ "  ") fs
      rw [emitEntry]
      split
      · rename_i hall
        have hclean : emittableFields fs = true := by
          rw [emittableFields_iff]
          intro p hp
          exact .inl (isUndef_iff.mp (List.all_eq_true.mp hall p hp))
        simp [emittable, hclean]
      · simp only [returns_bind, pure_eq_ok, returns_ok, and_true, emittable, Val.isUndef,
          Bool.false_or, ← hfields]
        exact Iff.rfl
  | _ => simp [emitEntry, emittable, scalar, Val.isUndef]

theorem emitList_returns (pad : String) (xs : List Val) :
    Returns (emitList pad xs) ↔ emittableList xs = true := by
  cases xs with
  | nil => simp [emitList, emittableList]
  | cons x rest =>
      have hhere := emitItem_returns pad x
      have hrest := emitList_returns pad rest
      simp only [emitList, emittableList, returns_bind, pure_eq_ok, returns_ok, and_true,
        Bool.and_eq_true, ← hhere, ← hrest]
      constructor
      · rintro ⟨here, hok, more, hmore⟩
        exact ⟨⟨here, hok⟩, more, hmore⟩
      · rintro ⟨⟨here, hok⟩, more, hmore⟩
        exact ⟨here, hok, more, hmore⟩

theorem emitItem_returns (pad : String) (v : Val) :
    Returns (emitItem pad v) ↔ emittable v = true := by
  cases v with
  | arr xs =>
      cases xs with
      | nil => simp [emitItem, emittable, emittableList]
      | cons x xs =>
          have hlist := emitList_returns (pad ++ "  ") (x :: xs)
          simp only [emitItem, returns_bind, pure_eq_ok, returns_ok, and_true, emittable, ← hlist]
          exact Iff.rfl
  | obj fs =>
      have hfields := emitEntries_returns (pad ++ "  ") fs
      simp only [emitItem, returns_bind, pure_eq_ok, returns_ok, and_true, emittable, ← hfields]
      exact Iff.rfl
  | _ => simp [emitItem, emittable, scalar]

end

theorem toYaml_returns (v : Val) : Returns (toYaml v) ↔ emittable v = true := by
  have hlines : Returns (toYaml v) ↔ Returns (emitLines v) := by
    simp only [toYaml, returns_bind, pure_eq_ok, returns_ok, and_true]
    exact Iff.rfl
  rw [hlines]
  cases v with
  | arr xs => exact emitList_returns "" xs
  | obj fs => exact emitEntries_returns "" fs
  | _ => simp [emitLines, emittable, scalar]

/-! ## Parsed data and what is made of it -/

mutual

theorem emittable_of_parsed (v : Val) (h : v.parsed = true) : emittable v = true := by
  cases v with
  | arr xs => exact emittableList_of_parsed xs h
  | obj fs =>
      simp only [Val.parsed, Bool.and_eq_true] at h
      exact emittableFields_of_parsed fs h.2
  | undef => cases h
  | fn _ => cases h
  | _ => rfl

theorem emittableList_of_parsed (xs : List Val) (h : Val.parsedList xs = true) :
    emittableList xs = true := by
  cases xs with
  | nil => rfl
  | cons x rest =>
      simp only [Val.parsedList, Bool.and_eq_true] at h
      simp [emittableList, emittable_of_parsed x h.1, emittableList_of_parsed rest h.2]

theorem emittableFields_of_parsed (fs : List (String × Val)) (h : Val.parsedFields fs = true) :
    emittableFields fs = true := by
  cases fs with
  | nil => rfl
  | cons p rest =>
      obtain ⟨k, v⟩ := p
      simp only [Val.parsedFields, Bool.and_eq_true] at h
      simp [emittableFields, emittable_of_parsed v h.1, emittableFields_of_parsed rest h.2]

end

@[simp, grind ←] theorem clean_undef : Clean .undef := .inl rfl

@[simp, grind ←] theorem clean_null : Clean .null := .inr rfl

@[simp, grind ←] theorem clean_bool (b : Bool) : Clean (.bool b) := .inr rfl

@[simp, grind ←] theorem clean_num (n : Number) : Clean (.num n) := .inr rfl

@[simp, grind ←] theorem clean_str (s : String) : Clean (.str s) := .inr rfl

@[simp, grind =] theorem clean_arr {xs : List Val} :
    Clean (.arr xs) ↔ ∀ x ∈ xs, emittable x = true := by
  simp [Clean, emittable_arr]

@[simp, grind =] theorem clean_obj {fs : Fields} : Clean (.obj fs) ↔ ∀ p ∈ fs, Clean p.2 := by
  simp [Clean, emittable_obj]

theorem clean_lookup {fs : Fields} (h : ∀ p ∈ fs, Clean p.2) (k : String) :
    Clean (Fields.lookup fs k) := by
  by_cases hk : Fields.lookup fs k = .undef
  · exact .inl hk
  · exact h _ (Fields.mem_of_lookup hk)

@[grind ←] theorem clean_get {v : Val} (h : Clean v) (k : String) : Clean (v.get k) := by
  cases v with
  | obj fs => exact clean_lookup (clean_obj.mp h) k
  | _ => exact .inl rfl

@[grind ←] theorem clean_orElse {a b : Val} (ha : Clean a) (hb : Clean b) : Clean (a.orElse b) := by
  unfold Val.orElse
  split
  · exact hb
  · exact ha

theorem clean_ownFields {v : Val} (h : Clean v) : ∀ p ∈ v.ownFields, Clean p.2 := by
  cases v with
  | obj fs => exact clean_obj.mp h
  | arr xs =>
      intro p hp
      obtain ⟨q, hq, rfl⟩ := List.mem_map.mp hp
      exact .inr (clean_arr.mp h _ (List.fst_mem_of_mem_zipIdx hq))
  | str s =>
      intro p hp
      obtain ⟨q, _, rfl⟩ := List.mem_map.mp hp
      exact clean_str _
  | _ => exact fun p hp ↦ absurd hp List.not_mem_nil

/-- A numeral is a number. -/
theorem val_ofNat (n : ℕ) : (ofNat(n) : Val) = .num (.ofInt n) := rfl

theorem emittable_of_clean_obj {fs : Fields} (h : Clean (.obj fs)) :
    emittable (.obj fs) = true := emittable_obj.mpr (clean_obj.mp h)

end RemoteDevbox.Spec
