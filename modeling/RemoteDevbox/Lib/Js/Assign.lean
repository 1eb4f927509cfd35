import RemoteDevbox.Lib.Js.Value

namespace Js

/-!
# Objects that are filled property by property

`out[k] = f(k, v)` for the properties of a mapping, on an object that starts
out empty.
-/

section Assign

variable {β : Type}

/-- Assignment keeps the position of an existing name. -/
def put : List (String × β) → String → β → List (String × β)
  | [], k, b => [(k, b)]
  | (k', b') :: rest, k, b => if k' = k then (k, b) :: rest else (k', b') :: put rest k b

/-- The name `__proto__` sets the prototype and leaves no property. -/
def assign (out : List (String × β)) (k : String) (b : β) : List (String × β) :=
  if k = "__proto__" then out else put out k b

def assignEach (f : String → Val → Js β) (out : List (String × β)) :
    Fields → Js (List (String × β))
  | [] => .ok out
  | (k, v) :: rest => do
      let b ← f k v
      assignEach f (assign out k b) rest

theorem put_of_notMem {out : List (String × β)} {k : String} (b : β)
    (h : k ∉ out.map Prod.fst) : put out k b = out ++ [(k, b)] := by
  induction out with
  | nil => rfl
  | cons p out ih =>
      obtain ⟨k', b'⟩ := p
      simp only [List.map_cons, List.mem_cons, not_or] at h
      rw [put, if_neg (Ne.symm h.1), ih h.2]
      rfl

/-- Distinct ordinary names end up in their order. -/
theorem assignEach_eq_ok {f : String → Val → Js β} {out result : List (String × β)}
    {fields : Fields} (hnodup : (out.map Prod.fst ++ fields.keys).Nodup)
    (hproto : "__proto__" ∉ fields.keys) :
    assignEach f out fields = .ok result ↔
      ∃ image, List.Forall₂ (fun p q ↦ q.1 = p.1 ∧ f p.1 p.2 = .ok q.2) fields image ∧
        result = out ++ image := by
  induction fields generalizing out with
  | nil => simp [assignEach, eq_comm]
  | cons p fields ih =>
      obtain ⟨k, v⟩ := p
      simp only [Fields.keys, List.map_cons, List.mem_cons, not_or] at hproto
      have hfresh : k ∉ out.map Prod.fst := by
        intro hmem
        exact (List.nodup_append.mp hnodup).2.2 k hmem k List.mem_cons_self rfl
      have hassign : ∀ b : β, assign out k b = out ++ [(k, b)] := by
        intro b
        rw [assign, if_neg (Ne.symm hproto.1), put_of_notMem b hfresh]
      have hrest : ∀ b : β,
          ((out ++ [(k, b)]).map Prod.fst ++ Fields.keys fields).Nodup := by
        intro b
        simpa [Fields.keys] using hnodup
      simp only [assignEach, bind_eq_ok]
      constructor
      · rintro ⟨b, hb, h⟩
        rw [hassign] at h
        obtain ⟨image, himage, rfl⟩ := (ih (hrest b) hproto.2).mp h
        exact ⟨(k, b) :: image, .cons ⟨rfl, hb⟩ himage, by simp⟩
      · rintro ⟨image, himage, rfl⟩
        cases himage with
        | @cons _ q _ image hq himage =>
            obtain ⟨k', b⟩ := q
            obtain ⟨rfl, hb⟩ := hq
            refine ⟨b, hb, ?_⟩
            rw [hassign]
            exact (ih (hrest b) hproto.2).mpr ⟨image, himage, by simp⟩

/-- Every property that was there before or comes from one of the mapping. -/
theorem mem_assignEach {f : String → Val → Js β} {out result : List (String × β)}
    {fields : Fields} (h : assignEach f out fields = .ok result) {k : String} {b : β}
    (hmem : (k, b) ∈ result) :
    (k, b) ∈ out ∨ (k ≠ "__proto__" ∧ ∃ v, (k, v) ∈ fields ∧ f k v = .ok b) := by
  have hput : ∀ (out : List (String × β)) (k' : String) (b' : β), (k, b) ∈ put out k' b' →
      (k, b) ∈ out ∨ (k, b) = (k', b') := by
    intro out k' b' hin
    induction out with
    | nil => exact .inr (List.mem_singleton.mp hin)
    | cons p out ih =>
        obtain ⟨k'', b''⟩ := p
        unfold put at hin
        split at hin
        · rcases List.mem_cons.mp hin with heq | hin
          · exact .inr heq
          · exact .inl (List.mem_cons_of_mem _ hin)
        · rcases List.mem_cons.mp hin with heq | hin
          · exact .inl (List.mem_cons.mpr (.inl heq))
          · exact (ih hin).imp (List.mem_cons_of_mem _) id
  induction fields generalizing out with
  | nil =>
      obtain rfl := Except.ok.inj h
      exact .inl hmem
  | cons p fields ih =>
      obtain ⟨k', v⟩ := p
      simp only [assignEach, bind_eq_ok] at h
      obtain ⟨b', hb', h⟩ := h
      rcases ih h with hin | ⟨hne, w, hw, hfw⟩
      · unfold assign at hin
        split at hin
        · exact .inl hin
        · rename_i hne
          rcases hput out k' b' hin with hin | heq
          · exact .inl hin
          · obtain ⟨rfl, rfl⟩ := Prod.mk.inj heq
            exact .inr ⟨hne, v, List.mem_cons_self, hb'⟩
      · exact .inr ⟨hne, w, List.mem_cons_of_mem _ hw, hfw⟩

/-- Each property of the mapping was evaluated. -/
theorem assignEach_each {f : String → Val → Js β} {out result : List (String × β)}
    {fields : Fields} (h : assignEach f out fields = .ok result) {p : String × Val}
    (hp : p ∈ fields) : ∃ b, f p.1 p.2 = .ok b := by
  induction fields generalizing out with
  | nil => cases hp
  | cons q fields ih =>
      obtain ⟨k, v⟩ := q
      simp only [assignEach, bind_eq_ok] at h
      obtain ⟨b, hb, h⟩ := h
      rcases List.mem_cons.mp hp with rfl | hp
      · exact ⟨b, hb⟩
      · exact ih h hp

end Assign

end Js
