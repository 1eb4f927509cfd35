import RemoteDevbox.Lib.Js.Number
import RemoteDevbox.Lib.Lists

namespace Js

/-!
# JavaScript values

Plain data as a parser of YAML or JSON produces it, together with
`undefined` and with the built-in functions a lookup can reach through
`Object.prototype`. Objects are lists of own properties in enumeration
order.
-/

inductive Val where
  | undef
  | null
  | bool (b : Bool)
  | num (n : Number)
  | str (s : String)
  | arr (xs : List Val)
  | obj (fields : List (String × Val))
  | fn (name : String)

/-- What an evaluation can throw. -/
inductive Thrown where
  | typeError
  | error (message : String)
  deriving DecidableEq

end Js

/-- An evaluation that can throw. -/
abbrev Js := Except Js.Thrown

namespace Js

section Monad

variable {α β : Type}

@[simp] theorem ok_bind (a : α) (f : α → Js β) : (Except.ok a : Js α) >>= f = f a := rfl

@[simp] theorem error_bind (e : Thrown) (f : α → Js β) :
    (Except.error e : Js α) >>= f = Except.error e := rfl

@[simp] theorem map_ok (f : α → β) (a : α) : f <$> (Except.ok a : Js α) = Except.ok (f a) := rfl

@[simp] theorem map_error (f : α → β) (e : Thrown) :
    f <$> (Except.error e : Js α) = Except.error e := rfl

theorem bind_eq_ok {x : Js α} {f : α → Js β} {b : β} :
    x >>= f = .ok b ↔ ∃ a, x = .ok a ∧ f a = .ok b := except_bind_eq_ok

@[simp] theorem pure_eq_ok (a : α) : (pure a : Js α) = Except.ok a := rfl

theorem mapM_eq_ok {f : α → Js β} {xs : List α} {ys : List β} :
    xs.mapM f = .ok ys ↔ List.Forall₂ (fun x y ↦ f x = .ok y) xs ys := except_mapM_eq_ok

/-- The evaluation comes to an end without throwing. -/
def Returns (x : Js α) : Prop := ∃ a, x = .ok a

@[simp] theorem returns_ok (a : α) : Returns (Except.ok a : Js α) := ⟨a, rfl⟩

@[simp] theorem not_returns_error (e : Thrown) : ¬ Returns (Except.error e : Js α) := by
  rintro ⟨a, h⟩
  cases h

theorem Returns.bind {x : Js α} {f : α → Js β} (hx : Returns x)
    (hf : ∀ a, x = .ok a → Returns (f a)) : Returns (x >>= f) := by
  obtain ⟨a, rfl⟩ := hx
  exact hf a rfl

theorem returns_bind {x : Js α} {f : α → Js β} :
    Returns (x >>= f) ↔ ∃ a, x = .ok a ∧ Returns (f a) := by
  cases x <;> simp

theorem mapM_returns {f : α → Js β} {xs : List α} :
    Returns (xs.mapM f) ↔ ∀ x ∈ xs, Returns (f x) := by
  induction xs with
  | nil => simp
  | cons x xs ih =>
      simp only [List.mapM_cons, returns_bind, pure_eq_ok, returns_ok, and_true,
        List.forall_mem_cons]
      rw [← ih]
      constructor
      · rintro ⟨a, ha, as, has⟩
        exact ⟨⟨a, ha⟩, as, has⟩
      · rintro ⟨⟨a, ha⟩, as, has⟩
        exact ⟨a, ha, as, has⟩

/-- The evaluation comes to an end, and what it returns satisfies `P`. -/
def Ends (P : α → Prop) (x : Js α) : Prop := ∃ a, x = .ok a ∧ P a

@[simp] theorem ends_ok {P : α → Prop} {a : α} : Ends P (Except.ok a : Js α) ↔ P a := by
  constructor
  · rintro ⟨b, h, hb⟩
    obtain rfl := Except.ok.inj h
    exact hb
  · exact fun h ↦ ⟨a, rfl, h⟩

theorem Ends.returns {P : α → Prop} {x : Js α} (h : Ends P x) : Returns x := by
  obtain ⟨a, ha, _⟩ := h
  exact ⟨a, ha⟩

theorem Ends.bind {P : α → Prop} {Q : β → Prop} {x : Js α} {f : α → Js β} (hx : Ends P x)
    (hf : ∀ a, P a → Ends Q (f a)) : Ends Q (x >>= f) := by
  obtain ⟨a, rfl, ha⟩ := hx
  exact hf a ha

theorem Ends.mapM {P : β → Prop} {f : α → Js β} {xs : List α} (h : ∀ x ∈ xs, Ends P (f x)) :
    Ends (fun ys ↦ ∀ y ∈ ys, P y) (xs.mapM f) := by
  induction xs with
  | nil => simp
  | cons x xs ih =>
      rw [List.forall_mem_cons] at h
      rw [List.mapM_cons]
      refine h.1.bind fun y hy ↦ (ih h.2).bind fun ys hys ↦ ?_
      simpa using ⟨hy, hys⟩

end Monad

abbrev Fields := List (String × Val)

instance (n : ℕ) : OfNat Val n := ⟨.num (.ofInt n)⟩

instance : Coe String Val := ⟨.str⟩

instance : Coe Bool Val := ⟨.bool⟩

instance : Coe Number Val := ⟨.num⟩

namespace Fields

/-- The own property named `k`, `undefined` when there is none. -/
def lookup : Fields → String → Val
  | [], _ => .undef
  | (k', v) :: rest, k => if k' = k then v else lookup rest k

def keys (fs : Fields) : List String := fs.map Prod.fst

/-- Defining a property keeps the position of an existing name. -/
def set : Fields → String → Val → Fields
  | [], k, v => [(k, v)]
  | (k', v') :: rest, k, v => if k' = k then (k, v) :: rest else (k', v') :: set rest k v

/-- `{ ...fs, ...gs }`. -/
def merge (fs gs : Fields) : Fields := gs.foldl (fun acc p ↦ acc.set p.1 p.2) fs

@[simp] theorem lookup_nil (k : String) : lookup [] k = .undef := rfl

theorem lookup_cons (k' k : String) (v : Val) (rest : Fields) :
    lookup ((k', v) :: rest) k = if k' = k then v else lookup rest k := rfl

theorem lookup_eq_undef_of_notMem {fs : Fields} {k : String} (h : k ∉ fs.keys) :
    fs.lookup k = .undef := by
  induction fs with
  | nil => rfl
  | cons p fs ih =>
      obtain ⟨k', v⟩ := p
      simp only [keys, List.map_cons, List.mem_cons, not_or] at h
      rw [lookup_cons, if_neg (Ne.symm h.1)]
      exact ih h.2

theorem mem_of_lookup {fs : Fields} {k : String} (h : fs.lookup k ≠ .undef) :
    (k, fs.lookup k) ∈ fs := by
  induction fs with
  | nil => exact (h rfl).elim
  | cons p fs ih =>
      obtain ⟨k', v⟩ := p
      by_cases hk : k' = k
      · subst hk
        simp [lookup_cons]
      · simp only [lookup_cons, if_neg hk] at h ⊢
        exact List.mem_cons_of_mem _ (ih h)

theorem lookup_mem {fs : Fields} {k : String} (h : k ∈ fs.keys) : (k, fs.lookup k) ∈ fs := by
  induction fs with
  | nil => simp [keys] at h
  | cons p fs ih =>
      obtain ⟨k', v⟩ := p
      by_cases hk : k' = k
      · subst hk
        simp [lookup_cons]
      · simp only [keys, List.map_cons, List.mem_cons] at h
        rw [lookup_cons, if_neg hk]
        exact List.mem_cons_of_mem _ (ih (h.resolve_left (Ne.symm hk)))

theorem mem_keys_of_lookup {fs : Fields} {k : String} (h : fs.lookup k ≠ .undef) :
    k ∈ fs.keys :=
  List.mem_map.mpr ⟨_, mem_of_lookup h, rfl⟩

theorem lookup_of_mem {fs : Fields} {k : String} {v : Val} (hnodup : fs.keys.Nodup)
    (h : (k, v) ∈ fs) : fs.lookup k = v := by
  induction fs with
  | nil => simp at h
  | cons p fs ih =>
      obtain ⟨k', v'⟩ := p
      simp only [keys, List.map_cons, List.nodup_cons] at hnodup
      rcases List.mem_cons.mp h with heq | hmem
      · obtain ⟨rfl, rfl⟩ := Prod.mk.inj heq
        simp [lookup_cons]
      · have hne : k' ≠ k := by
          rintro rfl
          exact hnodup.1 (List.mem_map.mpr ⟨_, hmem, rfl⟩)
        rw [lookup_cons, if_neg hne]
        exact ih hnodup.2 hmem

theorem lookup_set (fs : Fields) (k k' : String) (v : Val) :
    (fs.set k v).lookup k' = if k = k' then v else fs.lookup k' := by
  induction fs with
  | nil => simp [set, lookup_cons]
  | cons p fs ih =>
      obtain ⟨j, u⟩ := p
      by_cases hj : j = k
      · subst hj
        by_cases hk : j = k' <;> simp [set, lookup_cons, hk]
      · by_cases hk : k = k'
        · subst hk
          simp [set, lookup_cons, hj, ih]
        · simp only [set, if_neg hj, lookup_cons, ih, if_neg hk]

theorem keys_set (fs : Fields) (k : String) (v : Val) :
    (fs.set k v).keys = if k ∈ fs.keys then fs.keys else fs.keys ++ [k] := by
  induction fs with
  | nil => simp [set, keys]
  | cons p fs ih =>
      obtain ⟨j, u⟩ := p
      by_cases hj : j = k
      · subst hj
        simp [set, keys]
      · have hkeys : keys ((j, u) :: fs) = j :: keys fs := rfl
        have hset : keys (set ((j, u) :: fs) k v) = j :: keys (set fs k v) := by
          simp [set, hj, keys]
        rw [hset, hkeys, ih]
        by_cases hk : k ∈ keys fs
        · simp [hk]
        · simp [hk, Ne.symm hj]

theorem nodup_keys_set {fs : Fields} (h : fs.keys.Nodup) (k : String) (v : Val) :
    (fs.set k v).keys.Nodup := by
  rw [keys_set]
  split
  · exact h
  · rename_i hk
    exact List.nodup_append.mpr ⟨h, List.nodup_singleton k, fun a ha b hb ↦ by
      rw [List.mem_singleton.mp hb]
      exact fun heq ↦ hk (heq ▸ ha)⟩

theorem forall_set {P : Val → Prop} {fs : Fields} (h : ∀ p ∈ fs, P p.2) (k : String) {v : Val}
    (hv : P v) : ∀ p ∈ fs.set k v, P p.2 := by
  induction fs with
  | nil => simpa [set] using hv
  | cons p fs ih =>
      obtain ⟨k', v'⟩ := p
      rw [List.forall_mem_cons] at h
      simp only [set]
      split
      · exact List.forall_mem_cons.mpr ⟨hv, h.2⟩
      · exact List.forall_mem_cons.mpr ⟨h.1, ih h.2⟩

theorem forall_merge {P : Val → Prop} {fs gs : Fields} (hf : ∀ p ∈ fs, P p.2)
    (hg : ∀ p ∈ gs, P p.2) : ∀ p ∈ fs.merge gs, P p.2 := by
  induction gs generalizing fs with
  | nil => exact hf
  | cons p gs ih =>
      rw [List.forall_mem_cons] at hg
      exact ih (forall_set hf _ hg.1) hg.2

end Fields

namespace Val

/-! ## Types and conversions -/

def isRecord : Val → Bool
  | obj _ => true
  | _ => false

def isStr : Val → Bool
  | str _ => true
  | _ => false

def isBool : Val → Bool
  | bool _ => true
  | _ => false

def isUndef : Val → Bool
  | undef => true
  | _ => false

/-- `null` or `undefined`, the values that have no properties. -/
def isNullish : Val → Bool
  | undef => true
  | null => true
  | _ => false

def truthy : Val → Bool
  | undef => false
  | null => false
  | bool b => b
  | num n => n != .ofInt 0 && n != .nan
  | str s => s != ""
  | arr _ => true
  | obj _ => true
  | fn _ => true

/-- `v === b` for a Boolean literal. -/
def isBoolLit (v : Val) (b : Bool) : Bool :=
  match v with
  | bool c => c == b
  | _ => false

/-- `v === s` for a string. -/
def isStrLit (v : Val) (s : String) : Bool :=
  match v with
  | str t => t == s
  | _ => false

/-- `v === n` for a number. -/
def isNumLit (v : Val) (n : Number) : Bool :=
  match v with
  | num m => m == n && !m.isNaN
  | _ => false

/-- `===` and the equality of `includes` on parsed data, where two nodes are
never one object. -/
def strictEq : Val → Val → Bool
  | undef, undef => true
  | null, null => true
  | bool a, bool b => a == b
  | num a, num b => a == b && !a.isNaN
  | str a, str b => a == b
  | _, _ => false

/-- `a ?? b`. -/
def orElse (a b : Val) : Val := if a.isNullish then b else a

/-! ## Properties -/

/-- The names that every object literal inherits, with what they hold. -/
def inherited : String → Val
  | "constructor" => fn "Object"
  | "__proto__" => obj []
  | "hasOwnProperty" => fn "hasOwnProperty"
  | "isPrototypeOf" => fn "isPrototypeOf"
  | "propertyIsEnumerable" => fn "propertyIsEnumerable"
  | "toLocaleString" => fn "toLocaleString"
  | "toString" => fn "toString"
  | "valueOf" => fn "valueOf"
  | "__defineGetter__" => fn "__defineGetter__"
  | "__defineSetter__" => fn "__defineSetter__"
  | "__lookupGetter__" => fn "__lookupGetter__"
  | "__lookupSetter__" => fn "__lookupSetter__"
  | _ => undef

/-- `v?.k` for a fixed name that nothing inherits. -/
def get : Val → String → Val
  | obj fs, k => Fields.lookup fs k
  | _, _ => undef

/-- `v.k` for a fixed name that nothing inherits: it throws on `undefined`
and `null`. -/
def read (v : Val) (k : String) : Js Val :=
  if v.isNullish then .error .typeError else .ok (v.get k)

/-- `o[k]` on an object for a name computed from data. -/
def index (fs : Fields) (k : String) : Val :=
  if k ∈ fs.keys then fs.lookup k else inherited k

/-- `a?.b?.c` along a list of names. -/
def path (v : Val) (ks : List String) : Val := ks.foldl get v

/-! ## Iteration -/

/-- `[...v]`. -/
def spread : Val → Js (List Val)
  | arr xs => .ok xs
  | str s => .ok (s.toList.map fun c ↦ str (String.ofList [c]))
  | _ => .error .typeError

/-- A call of an array method on `v`. -/
def elems : Val → Js (List Val)
  | arr xs => .ok xs
  | _ => .error .typeError

/-- The own enumerable properties, as `{ ...v }` copies them. -/
def ownFields : Val → Fields
  | obj fs => fs
  | arr xs => xs.zipIdx.map fun p ↦ (toString p.2, p.1)
  | str s => s.toList.zipIdx.map fun p ↦ (toString p.2, str (String.ofList [p.1]))
  | _ => []

/-- `Object.entries(v)`. -/
def entries (v : Val) : Js Fields :=
  if v.isNullish then .error .typeError else .ok v.ownFields

/-! ## Conversion to a string -/

mutual

/-- `String(v)`. An own `toString` of parsed data is not callable, and the
conversion then throws. -/
def toStr : Val → Js String
  | undef => .ok "undefined"
  | null => .ok "null"
  | bool b => .ok (if b then "true" else "false")
  | num n => .ok n.toStr
  | str s => .ok s
  | arr xs => do
      let parts ← joinParts xs
      return ",".intercalate parts
  | obj fs =>
      if "toString" ∈ Fields.keys fs then .error .typeError else .ok "[object Object]"
  | fn name => .ok ("function " ++ name ++ "() { [native code] }")

/-- The pieces that `join` puts together. -/
def joinParts : List Val → Js (List String)
  | [] => .ok []
  | x :: xs => do
      let first ← if x.isNullish then .ok "" else toStr x
      let rest ← joinParts xs
      return first :: rest

end

/-- `xs.join(sep)`. -/
def join (sep : String) (xs : List Val) : Js String := do
  let parts ← joinParts xs
  return sep.intercalate parts

/-! ## Parsed documents -/

mutual

/-- A value a parser can produce: no `undefined`, no function, and every
mapping has its keys once. -/
def parsed : Val → Bool
  | undef => false
  | fn _ => false
  | arr xs => parsedList xs
  | obj fs => decide (Fields.keys fs).Nodup && parsedFields fs
  | _ => true

def parsedList : List Val → Bool
  | [] => true
  | x :: xs => parsed x && parsedList xs

def parsedFields : List (String × Val) → Bool
  | [] => true
  | (_, v) :: rest => parsed v && parsedFields rest

end

theorem parsedList_iff {xs : List Val} :
    parsedList xs = true ↔ ∀ x ∈ xs, x.parsed = true := by
  induction xs with
  | nil => simp [parsedList]
  | cons x xs ih => simp [parsedList, ih]

theorem parsedFields_iff {fs : Fields} :
    parsedFields fs = true ↔ ∀ p ∈ fs, p.2.parsed = true := by
  induction fs with
  | nil => simp [parsedFields]
  | cons p fs ih => simp [parsedFields, ih]

theorem parsed_obj {fs : Fields} :
    (obj fs).parsed = true ↔ fs.keys.Nodup ∧ ∀ p ∈ fs, p.2.parsed = true := by
  simp [parsed, parsedFields_iff]

theorem parsed_arr {xs : List Val} :
    (arr xs).parsed = true ↔ ∀ x ∈ xs, x.parsed = true := by
  simp [parsed, parsedList_iff]

theorem get_obj (fs : Fields) (k : String) : (obj fs).get k = fs.lookup k := rfl

theorem parsed_get {v : Val} (hv : v.parsed = true) {k : String} (hk : v.get k ≠ undef) :
    (v.get k).parsed = true := by
  cases v with
  | obj fs => exact (parsed_obj.mp hv).2 _ (Fields.mem_of_lookup hk)
  | _ => exact (hk rfl).elim

end Val

/-- The result of parsing a YAML or JSON text. -/
def Doc := {v : Val // v.parsed = true}

end Js
