import Mathlib.Data.List.Forall2
import Mathlib.Data.List.Nodup
import Mathlib.Data.List.Perm.Basic
import Mathlib.Data.List.ReduceOption

/-!
# Lists

Two lists related position by position, also by an evaluation that can fail, and
lists that a separator cuts in two.
-/

/-! ## Related position by position -/

section Related

variable {α β γ : Type}

theorem forall₂_of_getElem? {R : α → β → Prop} {xs : List α} {ys : List β}
    (hlength : ys.length = xs.length)
    (h : ∀ (i : ℕ) x, xs[i]? = some x → ∃ y, ys[i]? = some y ∧ R x y) :
    List.Forall₂ R xs ys := by
  refine List.forall₂_iff_get.mpr ⟨hlength.symm, ?_⟩
  intro i hx hy
  obtain ⟨y, hget, hrel⟩ := h i xs[i] (List.getElem?_eq_getElem hx)
  obtain rfl : ys[i] = y := by simpa [List.getElem?_eq_getElem hy] using hget
  exact hrel

theorem forall₂_comp {δ : Type} {R : α → β → Prop} {S : β → δ → Prop} {xs : List α} {ys : List β}
    {zs : List δ} (hxy : List.Forall₂ R xs ys) (hyz : List.Forall₂ S ys zs) :
    List.Forall₂ (fun x z ↦ ∃ y, R x y ∧ S y z) xs zs := by
  induction hxy generalizing zs with
  | nil =>
      cases hyz
      exact .nil
  | cons hx _ ih =>
      cases hyz with
      | cons hy hrest => exact .cons ⟨_, hx, hy⟩ (ih hrest)

theorem forall₂_exists_left {R : α → β → Prop} {xs : List α} {ys : List β}
    (h : List.Forall₂ R xs ys) {y : β} (hy : y ∈ ys) : ∃ x ∈ xs, R x y := by
  induction h with
  | nil => cases hy
  | cons hxy _ ih =>
      rcases List.mem_cons.mp hy with rfl | hy
      · exact ⟨_, List.mem_cons_self, hxy⟩
      · obtain ⟨x, hx, hr⟩ := ih hy
        exact ⟨x, List.mem_cons_of_mem _ hx, hr⟩

theorem exists_forall₂ {R : α → β → Prop} {xs : List α} (h : ∀ x ∈ xs, ∃ y, R x y) :
    ∃ ys, List.Forall₂ R xs ys := by
  induction xs with
  | nil => exact ⟨[], .nil⟩
  | cons x xs ih =>
      obtain ⟨hx, hxs⟩ := List.forall_mem_cons.mp h
      obtain ⟨y, hy⟩ := hx
      obtain ⟨ys, hys⟩ := ih hxs
      exact ⟨y :: ys, .cons hy hys⟩

/-- Of those that have one, in their order. -/
theorem sublist_of_forall₂ {f : α → γ} {g : β → γ} {xs : List α} {ys : List (Option β)}
    (h : List.Forall₂ (fun x y ↦ ∀ b, y = some b → g b = f x) xs ys) :
    (ys.reduceOption.map g).Sublist (xs.map f) := by
  induction h with
  | nil => exact .slnil
  | @cons x y xs ys hxy _ ih =>
      cases y with
      | none => exact ih.cons _
      | some b =>
          rw [List.reduceOption_cons_of_some, List.map_cons, List.map_cons, hxy b rfl]
          exact ih.cons_cons _

theorem map_eq_of_forall₂ {R : α → β → Prop} {f : α → γ} {g : β → γ} {xs : List α}
    {ys : List β} (h : List.Forall₂ R xs ys) (heq : ∀ x y, R x y → f x = g y) :
    xs.map f = ys.map g := by
  induction h with
  | nil => rfl
  | cons hxy _ ih => rw [List.map_cons, List.map_cons, heq _ _ hxy, ih]

theorem filterMap_eq_of_forall₂ {R : α → β → Prop} {f : α → Option γ} {g : β → Option γ}
    {xs : List α} {ys : List β} (h : List.Forall₂ R xs ys) (heq : ∀ x y, R x y → f x = g y) :
    xs.filterMap f = ys.filterMap g := by
  induction h with
  | nil => rfl
  | cons hxy _ ih => rw [List.filterMap_cons, List.filterMap_cons, heq _ _ hxy, ih]

theorem flatMap_eq_of_forall₂ {R : α → β → Prop} {f : α → List γ} {g : β → List γ}
    {xs : List α} {ys : List β} (h : List.Forall₂ R xs ys) (heq : ∀ x y, R x y → f x = g y) :
    xs.flatMap f = ys.flatMap g := by
  induction h with
  | nil => rfl
  | cons hxy _ ih => rw [List.flatMap_cons, List.flatMap_cons, heq _ _ hxy, ih]

theorem forall₂_fst {κ α β : Type} {R : κ × α → κ × β → Prop} {xs : List (κ × α)}
    {ys : List (κ × β)} (h : List.Forall₂ R xs ys) (hfst : ∀ x y, R x y → y.1 = x.1) :
    ys.map Prod.fst = xs.map Prod.fst := by
  induction h with
  | nil => rfl
  | cons hxy _ ih => rw [List.map_cons, List.map_cons, ih, hfst _ _ hxy]

theorem except_bind_eq_ok {ε : Type} {x : Except ε α} {f : α → Except ε β} {b : β} :
    x >>= f = .ok b ↔ ∃ a, x = .ok a ∧ f a = .ok b := by
  cases x with
  | ok a =>
      constructor
      · exact fun h ↦ ⟨a, rfl, h⟩
      · rintro ⟨_, ⟨⟩, hf⟩
        exact hf
  | error e =>
      constructor
      · exact fun h ↦ by cases h
      · rintro ⟨_, ⟨⟩, -⟩

theorem except_mapM_eq_ok {ε : Type} {f : α → Except ε β} {xs : List α} {ys : List β} :
    xs.mapM f = .ok ys ↔ List.Forall₂ (fun x y ↦ f x = .ok y) xs ys := by
  induction xs generalizing ys with
  | nil =>
      rw [List.mapM_nil, List.forall₂_nil_left_iff]
      exact ⟨fun h ↦ (Except.ok.inj h).symm, fun h ↦ h ▸ rfl⟩
  | cons x xs ih =>
      simp only [List.mapM_cons, except_bind_eq_ok, List.forall₂_cons_left_iff, ih]
      constructor
      · rintro ⟨y, hy, rest, hrest, hys⟩
        exact ⟨y, rest, hy, hrest, (Except.ok.inj hys).symm⟩
      · rintro ⟨y, rest, hy, hrest, rfl⟩
        exact ⟨y, hy, rest, hrest, rfl⟩

theorem mapM_option_eq_some {f : α → Option β} {xs : List α} {ys : List β} :
    xs.mapM f = some ys ↔ List.Forall₂ (fun x y ↦ f x = some y) xs ys := by
  induction xs generalizing ys with
  | nil => simp [eq_comm]
  | cons x xs ih =>
      simp only [List.mapM_cons, Option.bind_eq_bind, Option.bind_eq_some_iff, Option.pure_def,
        Option.some.injEq, List.forall₂_cons_left_iff, ih]
      constructor
      · rintro ⟨y, hy, rest, hrest, rfl⟩
        exact ⟨y, rest, hy, hrest, rfl⟩
      · rintro ⟨y, rest, hy, hrest, rfl⟩
        exact ⟨y, hy, rest, hrest, rfl⟩

theorem mapM_option_perm {f : α → Option β} {xs xs' : List α} {ys : List β} (hperm : xs.Perm xs')
    (h : xs.mapM f = some ys) : ∃ ys', xs'.mapM f = some ys' ∧ ys.Perm ys' := by
  obtain ⟨ys', hrel, hys⟩ := List.perm_comp_forall₂ hperm.symm (mapM_option_eq_some.mp h)
  exact ⟨ys', mapM_option_eq_some.mpr hrel, hys.symm⟩

end Related

/-- Different keys: one element has the key of a given one. -/
theorem filter_key_eq {α κ : Type} [DecidableEq κ] {f : α → κ} {xs : List α}
    (hnodup : (xs.map f).Nodup) {a : α} (ha : a ∈ xs) :
    xs.filter (fun x ↦ decide (f x = f a)) = [a] := by
  induction xs with
  | nil => cases ha
  | cons x xs ih =>
      rw [List.map_cons, List.nodup_cons] at hnodup
      obtain ⟨hx, hnodup⟩ := hnodup
      rcases List.mem_cons.mp ha with rfl | ha
      · rw [List.filter_cons_of_pos (by simp)]
        have hnone : xs.filter (fun x ↦ decide (f x = f a)) = [] := by
          rw [List.filter_eq_nil_iff]
          intro y hy heq
          exact hx (List.mem_map.mpr ⟨y, hy, of_decide_eq_true heq⟩)
        rw [hnone]
      · have hne : ¬f x = f a := fun heq ↦ hx (List.mem_map.mpr ⟨a, ha, heq.symm⟩)
        rw [List.filter_cons_of_neg (by simpa using hne), ih hnodup ha]

theorem eq_singleton_of_nodup {α : Type} {xs : List α} {a : α} (hnodup : xs.Nodup)
    (hne : xs ≠ []) (h : ∀ x ∈ xs, x = a) : xs = [a] := by
  cases xs with
  | nil => exact (hne rfl).elim
  | cons x xs =>
      obtain rfl := h x List.mem_cons_self
      rw [List.nodup_cons] at hnodup
      have hnil : xs = [] := by
        refine List.eq_nil_iff_forall_not_mem.mpr fun y hy ↦ ?_
        exact hnodup.1 (h y (List.mem_cons_of_mem _ hy) ▸ hy)
      rw [hnil]

/-- What tells two elements apart under `f` tells them apart under `g`. -/
theorem nodup_map_of {α β γ : Type} {f : α → β} {g : α → γ} {xs : List α} (h : (xs.map f).Nodup)
    (hfg : ∀ x ∈ xs, ∀ y ∈ xs, g x = g y → f x = f y) : (xs.map g).Nodup := by
  rw [List.Nodup, List.pairwise_map] at h ⊢
  exact h.imp_of_mem fun hx hy hne heq ↦ hne (hfg _ hx _ hy heq)

/-- No two elements have one image. -/
theorem nodup_filterMap_iff {α β : Type} {f : α → Option β} {xs : List α} (hnodup : xs.Nodup) :
    (xs.filterMap f).Nodup ↔ ∀ x ∈ xs, ∀ y ∈ xs, ∀ b, f x = some b → f y = some b → x = y := by
  constructor
  · intro h x hx y hy b hxb hyb
    obtain ⟨before, after, rfl⟩ := List.append_of_mem hx
    rw [List.filterMap_append, List.filterMap_cons_some hxb, List.nodup_middle, List.nodup_cons,
      ← List.filterMap_append] at h
    by_contra hne
    have hrest : y ∈ before ++ after := by
      rcases List.mem_append.mp hy with hbefore | hafter
      · exact List.mem_append_left _ hbefore
      · rcases List.mem_cons.mp hafter with rfl | hafter
        · exact (hne rfl).elim
        · exact List.mem_append_right _ hafter
    exact h.1 (List.mem_filterMap.mpr ⟨y, hrest, hyb⟩)
  · intro h
    rw [List.Nodup, List.pairwise_filterMap]
    refine hnodup.imp_of_mem fun {x y} hx hy hne b hb b' hb' heq ↦ ?_
    exact hne (h x hx y hy b hb (heq ▸ hb'))

theorem not_mem_of_mem_splitOn {α : Type*} [DecidableEq α] {sep : α} {l text : List α}
    (h : l ∈ text.splitOn sep) : sep ∉ l ∧ ∀ a ∈ l, a ∈ text := by
  induction text generalizing l with
  | nil =>
      rw [List.splitOn_nil, List.mem_singleton] at h
      subst h
      simp
  | cons b text ih =>
      rw [List.splitOn_cons_eq_if_modifyHead] at h
      split at h
      · rcases List.mem_cons.mp h with rfl | h
        · simp
        · exact ⟨(ih h).1, fun a ha ↦ List.mem_cons_of_mem _ ((ih h).2 a ha)⟩
      · rename_i hb
        cases hsplit : text.splitOn sep with
        | nil => exact absurd hsplit (List.splitOn_ne_nil _ _)
        | cons first rest =>
            rw [hsplit, List.modifyHead_cons] at h
            rcases List.mem_cons.mp h with rfl | h
            · have hfirst := ih (hsplit ▸ List.mem_cons_self)
              refine ⟨fun hmem ↦ ?_, fun a ha ↦ ?_⟩
              · rcases List.mem_cons.mp hmem with heq | hmem
                · exact hb (by simp [heq])
                · exact hfirst.1 hmem
              · rcases List.mem_cons.mp ha with rfl | ha
                · exact List.mem_cons_self
                · exact List.mem_cons_of_mem _ (hfirst.2 a ha)
            · have hrest := ih (hsplit ▸ List.mem_cons_of_mem _ h)
              exact ⟨hrest.1, fun a ha ↦ List.mem_cons_of_mem _ (hrest.2 a ha)⟩

/-! ## Joined by separators -/

section Joined

variable {α β : Type}

theorem notMem_intercalate {sep : List α} {c : α} (hsep : c ∉ sep) {xs : List (List α)}
    (h : ∀ l ∈ xs, c ∉ l) : c ∉ sep.intercalate xs := by
  induction xs with
  | nil => exact List.not_mem_nil
  | cons l xs ih =>
      obtain ⟨hl, hxs⟩ := List.forall_mem_cons.mp h
      cases xs with
      | nil => simpa using hl
      | cons l' xs =>
          rw [List.intercalate_cons_cons, List.mem_append, List.mem_append]
          exact not_or.mpr ⟨not_or.mpr ⟨hl, hsep⟩, ih hxs⟩

theorem cons_intercalate (sep : α) {xss : List (List α)} (h : xss ≠ []) :
    sep :: [sep].intercalate xss = xss.flatMap (sep :: ·) := by
  induction xss with
  | nil => exact absurd rfl h
  | cons xs xss ih =>
      cases xss with
      | nil => simp
      | cons ys yss =>
          rw [List.intercalate_cons_cons, List.flatMap_cons, ← ih (List.cons_ne_nil _ _)]
          simp

theorem intercalate_concat (sep : List α) {xs : List (List α)} (h : xs ≠ []) (x : List α) :
    sep.intercalate (xs ++ [x]) = sep.intercalate xs ++ sep ++ x := by
  induction xs with
  | nil => exact absurd rfl h
  | cons l xs ih =>
      cases xs with
      | nil => simp
      | cons l' xs =>
          have hrest := ih (List.cons_ne_nil _ _)
          rw [List.cons_append, List.cons_append, List.intercalate_cons_cons, List.intercalate_cons_cons,
            ← List.cons_append, hrest]
          simp

theorem map_intercalate (f : α → β) (sep : List α) (xs : List (List α)) :
    (sep.intercalate xs).map f = (sep.map f).intercalate (xs.map (·.map f)) := by
  induction xs with
  | nil => rfl
  | cons l xs ih =>
      cases xs with
      | nil => simp
      | cons l' xs =>
          rw [List.intercalate_cons_cons, List.map_append, List.map_append, ih]
          simp [List.intercalate_cons_cons]

end Joined

/-! ## Looked up by a key -/

section Lookup

variable {κ α : Type} [BEq κ] [LawfulBEq κ]

theorem mem_of_lookup {xs : List (κ × α)} {k : κ} {a : α} (h : xs.lookup k = some a) :
    (k, a) ∈ xs := by
  obtain ⟨ys, zs, rfl, _⟩ := List.lookup_eq_some_iff.mp h
  simp

theorem lookup_of_mem {xs : List (κ × α)} {k : κ} {a : α} (hnodup : (xs.map Prod.fst).Nodup)
    (h : (k, a) ∈ xs) : xs.lookup k = some a := by
  obtain ⟨ys, zs, rfl⟩ := List.append_of_mem h
  refine List.lookup_eq_some_iff.mpr ⟨ys, zs, rfl, fun p hp ↦ ?_⟩
  rw [List.map_append] at hnodup
  have hne := (List.nodup_append.mp hnodup).2.2 p.1 (List.mem_map_of_mem hp) k (by simp)
  simpa using Ne.symm hne

theorem lookup_eq_none {xs : List (κ × α)} {k : κ} :
    xs.lookup k = none ↔ k ∉ xs.map Prod.fst := by
  simp only [List.lookup_eq_none_iff, List.mem_map, not_exists, not_and, bne_iff_ne, ne_eq]
  constructor
  · exact fun h p hp heq ↦ h p hp heq.symm
  · exact fun h p hp heq ↦ h p hp heq.symm

/-- With every key once, any order of the pairs serves. -/
theorem lookup_reverse {xs : List (κ × α)} (hnodup : (xs.map Prod.fst).Nodup) (k : κ) :
    xs.reverse.lookup k = xs.lookup k := by
  cases h : xs.lookup k with
  | none =>
      rw [lookup_eq_none] at h ⊢
      rwa [List.map_reverse, List.mem_reverse]
  | some a =>
      refine lookup_of_mem ?_ (List.mem_reverse.mpr (mem_of_lookup h))
      rwa [List.map_reverse, List.nodup_reverse]

omit [LawfulBEq κ] in
theorem lookup_map {β : Type} (f : α → β) (xs : List (κ × α)) (k : κ) :
    (xs.map fun p ↦ (p.1, f p.2)).lookup k = (xs.lookup k).map f := by
  induction xs with
  | nil => rfl
  | cons p xs ih =>
      obtain ⟨k', a⟩ := p
      rw [List.map_cons, List.lookup_cons, List.lookup_cons, ih]
      cases k == k' <;> rfl

theorem lookup_filter (xs : List (κ × α)) {q : κ → Bool} {k : κ} (h : q k = true) :
    (xs.filter fun p ↦ q p.1).lookup k = xs.lookup k := by
  induction xs with
  | nil => rfl
  | cons p xs ih =>
      obtain ⟨k', a⟩ := p
      rw [List.filter_cons]
      by_cases hk : k = k'
      · subst hk
        simp [h]
      · have hne : (k == k') = false := by simpa using hk
        split <;> simp [List.lookup_cons, hne, ih]

end Lookup

/-! ## Cut by a separator -/

/-- The first separator. -/
theorem append_sep_inj {α : Type} {sep : α} {xs ys us vs : List α} (hx : sep ∉ xs)
    (hu : sep ∉ us) : xs ++ sep :: ys = us ++ sep :: vs ↔ xs = us ∧ ys = vs := by
  induction xs generalizing us with
  | nil =>
      cases us with
      | nil => simp
      | cons u us =>
          simp only [List.mem_cons, not_or] at hu
          simp [hu.1]
  | cons x xs ih =>
      simp only [List.mem_cons, not_or] at hx
      cases us with
      | nil => simp [Ne.symm hx.1]
      | cons u us =>
          simp only [List.mem_cons, not_or] at hu
          simp [ih hx.2 hu.2, and_assoc]

/-- The last separator. -/
theorem append_sep_inj_last {α : Type} {sep : α} {xs ys us vs : List α} (hy : sep ∉ ys)
    (hv : sep ∉ vs) : xs ++ sep :: ys = us ++ sep :: vs ↔ xs = us ∧ ys = vs := by
  have hreverse : ys.reverse ++ sep :: xs.reverse = vs.reverse ++ sep :: us.reverse ↔
      ys.reverse = vs.reverse ∧ xs.reverse = us.reverse :=
    append_sep_inj (fun h ↦ hy (List.mem_reverse.mp h)) (fun h ↦ hv (List.mem_reverse.mp h))
  rw [List.reverse_inj, List.reverse_inj, and_comm] at hreverse
  rw [← hreverse, ← List.reverse_inj]
  simp
