import RemoteDevbox.Lib.Lists
import RemoteDevbox.Lib.Regex
import Mathlib.Algebra.Order.Ring.Rat

/-!
# Python values

What `json.load` returns. A text is a list of code points, and some of them may
be halves of a surrogate pair; such a text has no UTF-8 form. Numbers are exact.
-/

namespace Py

/-! ## Texts -/

inductive Point where
  | char (c : Char)
  | half (u : Fin 2048)
  deriving DecidableEq

abbrev Str := List Point

def str (s : String) : Str := s.toList.map .char

/-- The character of a code point that is not half of a pair. -/
def Point.char? : Point → Option Char
  | .char c => some c
  | .half _ => none

/-- The text has a UTF-8 form. -/
def encodable (s : Str) : Bool := s.all fun p ↦ p.char?.isSome

/-- `re.match(s)` for `^…$`, of which the `$` also holds before a final newline. -/
def reMatch (re : Regex) (s : Str) : Bool :=
  match s.mapM Point.char? with
  | none => false
  | some cs => Regex.isMatch re cs || (cs.getLast? == some '\n' && Regex.isMatch re cs.dropLast)

theorem encodable_of_reMatch {re : Regex} {s : Str} (h : reMatch re s = true) :
    encodable s = true := by
  unfold reMatch at h
  cases hchars : s.mapM Point.char? with
  | none => simp [hchars] at h
  | some cs =>
      refine List.all_eq_true.mpr fun p hp ↦ ?_
      clear h
      induction s generalizing cs with
      | nil => cases hp
      | cons q s ih =>
          simp only [List.mapM_cons, bind, Option.bind_eq_some_iff, pure, Option.some.injEq] at hchars
          obtain ⟨c, hc, rest, hrest, _⟩ := hchars
          rcases List.mem_cons.mp hp with rfl | hp
          · rw [hc]
            rfl
          · exact ih rest hrest hp

/-! ## Values -/

inductive Double where
  | fin (q : ℚ)
  | inf
  | ninf
  | nan
  deriving DecidableEq

inductive Value where
  | none
  | bool (b : Bool)
  | int (z : ℤ)
  | float (x : Double)
  | str (s : Str)
  | list (xs : List Value)
  | dict (fields : List (Str × Value))

instance : Coe String Value := ⟨fun s ↦ .str (Py.str s)⟩

/-- What an evaluation can raise. -/
inductive Raised where
  | attributeError
  | typeError
  | valueError
  | keyError
  | overflowError
  | unicodeEncodeError
  deriving DecidableEq

end Py

/-- An evaluation that can raise. -/
abbrev Py := Except Py.Raised

namespace Py

section Monad

variable {α β : Type}

@[simp] theorem ok_bind (a : α) (f : α → Py β) : (Except.ok a : Py α) >>= f = f a := rfl

@[simp] theorem error_bind (e : Raised) (f : α → Py β) :
    (Except.error e : Py α) >>= f = Except.error e := rfl

@[simp] theorem pure_eq_ok (a : α) : (pure a : Py α) = Except.ok a := rfl

theorem bind_eq_ok {x : Py α} {f : α → Py β} {b : β} :
    x >>= f = .ok b ↔ ∃ a, x = .ok a ∧ f a = .ok b := except_bind_eq_ok

theorem mapM_eq_ok {f : α → Py β} {xs : List α} {ys : List β} :
    xs.mapM f = .ok ys ↔ List.Forall₂ (fun x y ↦ f x = .ok y) xs ys := except_mapM_eq_ok

end Monad

/-! ## Dictionaries -/

section Dict

variable {α : Type}

/-- `d[k] = v`. -/
def assign : List (Str × α) → Str → α → List (Str × α)
  | [], k, v => [(k, v)]
  | (k', v') :: rest, k, v => if k' = k then (k, v) :: rest else (k', v') :: assign rest k v

theorem lookup_assign (d : List (Str × α)) (k k' : Str) (v : α) :
    (assign d k v).lookup k' = if k' = k then some v else d.lookup k' := by
  induction d with
  | nil =>
      by_cases h : k' = k
      · simp [assign, h]
      · have hne : (k' == k) = false := by simpa using h
        simp [assign, List.lookup_cons, h, hne]
  | cons p d ih =>
      obtain ⟨j, w⟩ := p
      by_cases hj : j = k
      · subst hj
        by_cases h : k' = j
        · simp [assign, h]
        · have hne : (k' == j) = false := by simpa using h
          simp [assign, List.lookup_cons, h, hne]
      · by_cases h : k' = j
        · subst h
          simp [assign, hj]
        · have hne : (k' == j) = false := by simpa using h
          simp [assign, hj, List.lookup_cons, hne, ih]

theorem keys_assign (d : List (Str × α)) (k : Str) (v : α) :
    (assign d k v).map Prod.fst =
      if k ∈ d.map Prod.fst then d.map Prod.fst else d.map Prod.fst ++ [k] := by
  induction d with
  | nil => simp [assign]
  | cons p d ih =>
      obtain ⟨j, w⟩ := p
      by_cases hj : j = k
      · subst hj
        simp [assign]
      · rw [assign, if_neg hj, List.map_cons, List.map_cons, ih]
        by_cases hk : k ∈ d.map Prod.fst <;> simp [hk, Ne.symm hj]

theorem nodup_assign {d : List (Str × α)} (h : (d.map Prod.fst).Nodup) (k : Str) (v : α) :
    ((assign d k v).map Prod.fst).Nodup := by
  rw [keys_assign]
  split
  · exact h
  · rename_i hk
    exact List.nodup_append.mpr ⟨h, List.nodup_singleton k, fun a ha b hb ↦ by
      rw [List.mem_singleton.mp hb]
      exact fun heq ↦ hk (heq ▸ ha)⟩

/-- Assigned one after the other, the last value of a key stays. -/
theorem lookup_foldl_assign (xs out : List (Str × α)) (k : Str) :
    (xs.foldl (fun out p ↦ assign out p.1 p.2) out).lookup k =
      (xs.reverse.lookup k).or (out.lookup k) := by
  induction xs generalizing out with
  | nil => rfl
  | cons p xs ih =>
      obtain ⟨j, w⟩ := p
      rw [List.foldl_cons, ih, lookup_assign, List.reverse_cons, List.lookup_append]
      by_cases h : k = j
      · subst h
        cases xs.reverse.lookup k <;> simp
      · have hne : (k == j) = false := by simpa using h
        simp [h, hne, List.lookup_cons]

theorem nodup_foldl_assign (xs : List (Str × α)) {out : List (Str × α)}
    (h : (out.map Prod.fst).Nodup) :
    ((xs.foldl (fun out p ↦ assign out p.1 p.2) out).map Prod.fst).Nodup := by
  induction xs generalizing out with
  | nil => exact h
  | cons p xs ih => exact ih (nodup_assign h p.1 p.2)

theorem mem_assign {d : List (Str × α)} {k : Str} {v : α} {p : Str × α}
    (h : p ∈ assign d k v) : p = (k, v) ∨ p ∈ d := by
  induction d with
  | nil => exact .inl (List.mem_singleton.mp h)
  | cons q d ih =>
      rw [assign] at h
      split at h
      · rcases List.mem_cons.mp h with rfl | h
        · exact .inl rfl
        · exact .inr (List.mem_cons_of_mem _ h)
      · rcases List.mem_cons.mp h with rfl | h
        · exact .inr List.mem_cons_self
        · exact (ih h).imp id (List.mem_cons_of_mem _)

theorem mem_foldl_assign {α : Type} {xs out : List (Str × α)} {p : Str × α}
    (h : p ∈ xs.foldl (fun out p ↦ assign out p.1 p.2) out) : p ∈ out ∨ p ∈ xs := by
  induction xs generalizing out with
  | nil => exact .inl h
  | cons q xs ih =>
      rcases ih h with h | h
      · rcases mem_assign h with rfl | h
        · exact .inr List.mem_cons_self
        · exact .inl h
      · exact .inr (List.mem_cons_of_mem _ h)

end Dict

namespace Value

/-- `v.get(k)`. -/
def get (v : Value) (k : Str) : Py Value :=
  match v with
  | dict fields => .ok ((fields.lookup k).getD none)
  | _ => .error .attributeError

def truthy : Value → Bool
  | none => false
  | bool b => b
  | int z => z != 0
  | float x => x != .fin 0
  | str s => s != []
  | list xs => !xs.isEmpty
  | dict fields => !fields.isEmpty

/-- `a or b`. -/
def orElse (a b : Value) : Value := if a.truthy then a else b

def isDict : Value → Bool
  | dict _ => true
  | _ => false

/-- The number a value stands for in a comparison. -/
def number : Value → Option Double
  | bool b => some (.fin (if b then 1 else 0))
  | int z => some (.fin z)
  | float x => some x
  | _ => Option.none

mutual

/-- `a == b`. A number that is no number is compared with itself only. -/
def eq : Value → Value → Bool
  | none, none => true
  | str a, str b => a == b
  | list xs, list ys => xs.length == ys.length && eqList xs ys
  | dict fs, dict gs => fs.length == gs.length && eqFields fs gs
  | a, b => a.number.isSome && a.number == b.number

def eqList : List Value → List Value → Bool
  | x :: xs, y :: ys => eq x y && eqList xs ys
  | _, _ => true

def eqFields : List (Str × Value) → List (Str × Value) → Bool
  | [], _ => true
  | (k, v) :: fs, gs =>
      (match gs.lookup k with
        | some w => eq v w
        | Option.none => false) && eqFields fs gs

end

theorem eq_str {s : Str} {w : Value} (h : (str s).eq w = true) : w = str s := by
  cases w with
  | str t =>
      simp only [eq, beq_iff_eq] at h
      rw [h]
  | _ => simp [eq, number] at h

theorem eq_float {x : Double} {w : Value} (h : (float x).eq w = true) : w.number = some x := by
  cases w <;> simp_all [eq, number]

theorem eq_dict {fs : List (Str × Value)} {w : Value} (h : (dict fs).eq w = true) :
    ∃ gs, w = dict gs ∧ fs.length = gs.length ∧ eqFields fs gs = true := by
  cases w with
  | dict gs =>
      simp only [eq, Bool.and_eq_true, beq_iff_eq] at h
      exact ⟨gs, rfl, h⟩
  | _ => simp [eq, number] at h

theorem eqFields_lookup {fs gs : List (Str × Value)} (h : eqFields fs gs = true) {k : Str}
    {v : Value} (hmem : (k, v) ∈ fs) : ∃ w, gs.lookup k = some w ∧ v.eq w = true := by
  induction fs with
  | nil => cases hmem
  | cons p fs ih =>
      obtain ⟨j, u⟩ := p
      simp only [eqFields, Bool.and_eq_true] at h
      rcases List.mem_cons.mp hmem with heq | hmem
      · obtain ⟨rfl, rfl⟩ := Prod.mk.inj heq
        cases hlookup : gs.lookup k with
        | none => simp [hlookup] at h
        | some w => exact ⟨w, rfl, by simpa [hlookup] using h.1⟩
      · exact ih h.2 hmem

/-- Equal dictionaries have the same keys. -/
theorem keys_of_eqFields {fs gs : List (Str × Value)} (hlength : fs.length = gs.length)
    (h : eqFields fs gs = true) (hnodup : (fs.map Prod.fst).Nodup) {k : Str}
    (hk : k ∈ gs.map Prod.fst) : k ∈ fs.map Prod.fst := by
  have hsubset : fs.map Prod.fst ⊆ gs.map Prod.fst := by
    intro j hj
    obtain ⟨p, hp, rfl⟩ := List.mem_map.mp hj
    obtain ⟨w, hw, _⟩ := eqFields_lookup h (k := p.1) (v := p.2) hp
    exact List.mem_map.mpr ⟨_, mem_of_lookup hw, rfl⟩
  have hperm : (fs.map Prod.fst).Perm (gs.map Prod.fst) :=
    (List.subperm_of_subset hnodup hsubset).perm_of_length_le (by simp [hlength])
  exact hperm.mem_iff.mpr hk

/-- The integers from here on are too large for a float. -/
def floatLimit : ℕ := 2 ^ 1024 - 2 ^ 970

/-- `float(v)`. How a text is read is left to `readFloat`. -/
def toFloat (readFloat : Str → Option Double) : Value → Py Double
  | float x => .ok x
  | int z => if z.natAbs < floatLimit then .ok (.fin z) else .error .overflowError
  | bool b => .ok (.fin (if b then 1 else 0))
  | str s =>
      match readFloat s with
      | some x => .ok x
      | Option.none => .error .valueError
  | _ => .error .typeError

/-- `str(v)`. What is written for a value that is no text is left to `repr`. -/
def text (repr : Value → Str) : Value → Str
  | str s => s
  | v => repr v

/-- `str(v or "")`. -/
def textOr (repr : Value → Str) (v : Value) : Str := if v.truthy then v.text repr else []

@[simp] theorem textOr_str (repr : Value → Str) (s : Str) : textOr repr (str s) = s := by
  cases s <;> simp [textOr, truthy, text]

theorem floatLimit_pos : 0 < floatLimit :=
  have hexponent : 970 < 1024 := by decide
  Nat.sub_pos_of_lt (Nat.pow_lt_pow_right Nat.one_lt_two hexponent)

attribute [irreducible] floatLimit

theorem toFloat_zero (readFloat : Str → Option Double) :
    (int 0).toFloat readFloat = .ok (.fin 0) := by
  have hlt : (0 : ℤ).natAbs < floatLimit := floatLimit_pos
  simp only [toFloat, if_pos hlt, Int.cast_zero]

mutual

/-- Every dictionary has each key once, as a parser leaves it. -/
def loaded : Value → Bool
  | list xs => loadedList xs
  | dict fields => decide (fields.map Prod.fst).Nodup && loadedFields fields
  | _ => true

def loadedList : List Value → Bool
  | [] => true
  | x :: xs => loaded x && loadedList xs

def loadedFields : List (Str × Value) → Bool
  | [] => true
  | (_, v) :: rest => loaded v && loadedFields rest

end

theorem nodup_of_loaded {fields : List (Str × Value)} (h : (dict fields).loaded = true) :
    (fields.map Prod.fst).Nodup := by
  simp only [loaded, Bool.and_eq_true, decide_eq_true_eq] at h
  exact h.1

end Value

end Py
