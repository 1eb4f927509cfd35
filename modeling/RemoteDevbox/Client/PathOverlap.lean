import RemoteDevbox.Client.Paths
import RemoteDevbox.Lib.Lists

namespace RemoteDevbox.Client

open Js

/-!
# Paths and their components

What `normalizePath` makes of a path is the text of a list of components, and
`pathsOverlap` compares these lists.
-/

/-! ## Components -/

/-- A component that names something. -/
structure Plain (c : String) : Prop where
  ne_empty : c ≠ ""
  ne_dot : c ≠ "."
  ne_dots : c ≠ ".."
  no_slash : '/' ∉ c.toList

/-- The absolute path of these components. -/
def render (cs : List String) : String := "/" ++ "/".intercalate cs

section Components

variable {cs ds stack : List String}

theorem pushComponent_plain {c : String} (hstack : ∀ d ∈ stack, Plain d) (hc : '/' ∉ c.toList) :
    ∀ d ∈ pushComponent stack c, Plain d := by
  unfold pushComponent
  split
  · exact hstack
  · split
    · exact fun d hd ↦ hstack d (List.dropLast_subset _ hd)
    · rename_i hempty hdots
      intro d hd
      rcases List.mem_append.mp hd with hd | hd
      · exact hstack d hd
      · obtain rfl := List.mem_singleton.mp hd
        simp only [Bool.or_eq_true, beq_iff_eq, not_or] at hempty hdots
        exact ⟨hempty.1, hempty.2, hdots, hc⟩

theorem foldl_pushComponent_plain (hcs : ∀ c ∈ cs, '/' ∉ c.toList) (hstack : ∀ d ∈ stack, Plain d) :
    ∀ d ∈ cs.foldl pushComponent stack, Plain d := by
  induction cs generalizing stack with
  | nil => exact hstack
  | cons c cs ih =>
      obtain ⟨hc, hcs⟩ := List.forall_mem_cons.mp hcs
      exact ih hcs (pushComponent_plain hstack hc)

theorem no_slash_of_split {p c : String} (hc : c ∈ Text.split '/' p) : '/' ∉ c.toList := by
  obtain ⟨l, hl, rfl⟩ := List.mem_map.mp hc
  rw [String.toList_ofList]
  exact (not_mem_of_mem_splitOn hl).1

theorem components_plain (p : String) : ∀ c ∈ components p, Plain c :=
  foldl_pushComponent_plain (fun _ hc ↦ no_slash_of_split hc) fun _ hc ↦ absurd hc List.not_mem_nil

theorem pushComponent_of_plain {c : String} (hc : Plain c) : pushComponent stack c = stack ++ [c] := by
  simp [pushComponent, hc.ne_empty, hc.ne_dot, hc.ne_dots]

theorem foldl_pushComponent_of_plain (hcs : ∀ c ∈ cs, Plain c) :
    cs.foldl pushComponent stack = stack ++ cs := by
  induction cs generalizing stack with
  | nil => simp
  | cons c cs ih =>
      obtain ⟨hc, hcs⟩ := List.forall_mem_cons.mp hcs
      rw [List.foldl_cons, pushComponent_of_plain hc, ih hcs, List.append_assoc, List.singleton_append]

theorem toList_render (cs : List String) :
    (render cs).toList = '/' :: ['/'].intercalate (cs.map String.toList) := by
  rw [render, String.toList_append, String.toList_intercalate]
  rfl

theorem split_append (u v : String) :
    Text.split '/' (u ++ "/" ++ v) = Text.split '/' u ++ Text.split '/' v := by
  have hlist : (u ++ "/" ++ v).toList = u.toList ++ '/' :: v.toList := by
    simp
  rw [Text.split, hlist, List.splitOn_append_cons_self, List.map_append]
  rfl

/-- Components that are written out are read again. -/
theorem components_render (hcs : ∀ c ∈ cs, Plain c) : components (render cs) = cs := by
  have hsplit : Text.split '/' (render cs) = "" :: Text.split '/' ("/".intercalate cs) := by
    have happend := split_append "" ("/".intercalate cs)
    rwa [String.empty_append] at happend
  rw [components, hsplit, List.foldl_cons]
  cases cs with
  | nil => decide
  | cons c cs =>
      have hlists : Text.split '/' ("/".intercalate (c :: cs)) = c :: cs := by
        rw [Text.split, String.toList_intercalate]
        have hslash : ∀ l ∈ (c :: cs).map String.toList, '/' ∉ l := by
          intro l hl
          obtain ⟨d, hd, rfl⟩ := List.mem_map.mp hl
          exact (hcs d hd).no_slash
        rw [show "/".toList = ['/'] from rfl, List.splitOn_intercalate '/' hslash (by simp)]
        simp [Function.comp_def]
      rw [hlists]
      exact foldl_pushComponent_of_plain hcs

theorem render_inj (hcs : ∀ c ∈ cs, Plain c) (hds : ∀ d ∈ ds, Plain d) :
    render cs = render ds ↔ cs = ds := by
  constructor
  · intro h
    rw [← components_render hcs, h, components_render hds]
  · rintro rfl
    rfl

end Components

/-! ## Overlap -/

section Overlap

variable {cs ds : List String} {env : ClientEnv}

/-- A text in front of a separator tells what it is put together from. -/
theorem prefix_intercalate_iff {α : Type} [DecidableEq α] {sep : α} {xs ys : List (List α)}
    (hne : xs ≠ []) (hxs : ∀ l ∈ xs, sep ∉ l) (hys : ∀ l ∈ ys, sep ∉ l) :
    [sep].intercalate xs ++ [sep] <+: [sep].intercalate ys ↔ ∃ z zs, ys = xs ++ z :: zs := by
  constructor
  · rintro ⟨rest, hrest⟩
    have hnil : ys ≠ [] := by
      rintro rfl
      simp at hrest
    have hsplit := congrArg (·.splitOn sep) hrest
    simp only [List.append_assoc, List.singleton_append, List.splitOn_append_cons_self,
      List.splitOn_intercalate sep hxs hne, List.splitOn_intercalate sep hys hnil] at hsplit
    obtain ⟨z, zs, hz⟩ := List.exists_cons_of_ne_nil (List.splitOn_ne_nil sep rest)
    exact ⟨z, zs, by rw [← hsplit, hz]⟩
  · rintro ⟨z, zs, rfl⟩
    refine ⟨[sep].intercalate (z :: zs), ?_⟩
    clear hxs hys
    induction xs with
    | nil => exact absurd rfl hne
    | cons x xs ih =>
        cases xs with
        | nil => simp [List.intercalate_cons_cons]
        | cons x' xs =>
            have hrest := ih (List.cons_ne_nil _ _)
            rw [List.cons_append, List.cons_append, List.intercalate_cons_cons,
              List.intercalate_cons_cons, ← List.cons_append, ← hrest]
            simp

theorem within_render (hcs : ∀ c ∈ cs, Plain c) (hds : ∀ d ∈ ds, Plain d) :
    within (render cs) (render ds) = true ↔ cs = [] ∨ ∃ z zs, ds = cs ++ z :: zs := by
  have hslash : ∀ es : List String, (∀ e ∈ es, Plain e) → ∀ l ∈ es.map String.toList, '/' ∉ l := by
    intro es hes l hl
    obtain ⟨e, he, rfl⟩ := List.mem_map.mp hl
    exact (hes e he).no_slash
  rw [within, List.isPrefixOf_iff_prefix]
  by_cases hroot : cs = []
  · subst hroot
    have hprefix : ['/'] <+: (render ds).toList := by
      rw [toList_render]
      exact ⟨_, rfl⟩
    rw [if_pos (by decide)]
    exact iff_of_true hprefix (.inl rfl)
  · have hne : ¬(render cs == "/") = true := by
      rw [beq_iff_eq]
      intro h
      have hnil : render cs = render [] := h
      exact hroot ((render_inj hcs fun _ hd ↦ absurd hd List.not_mem_nil).mp hnil)
    rw [if_neg hne, String.toList_append, toList_render, toList_render,
      show "/".toList = ['/'] from rfl, List.cons_append, List.cons_prefix_cons]
    simp only [true_and, hroot, false_or]
    rw [prefix_intercalate_iff (by simpa using hroot) (hslash cs hcs) (hslash ds hds)]
    constructor
    · rintro ⟨z, zs, hmap⟩
      obtain ⟨es, rest, rfl, hes, hrest⟩ := List.map_eq_append_iff.mp hmap
      obtain ⟨e, rest, rfl, _, _⟩ := List.map_eq_cons_iff.mp hrest
      rw [List.map_inj_right (fun _ _ h ↦ String.toList_inj.mp h)] at hes
      exact ⟨e, rest, by rw [hes]⟩
    · rintro ⟨z, zs, rfl⟩
      exact ⟨z.toList, zs.map String.toList, by rw [List.map_append, List.map_cons]⟩

theorem overlap_render (hcs : ∀ c ∈ cs, Plain c) (hds : ∀ d ∈ ds, Plain d) :
    (render cs == render ds || within (render cs) (render ds) || within (render ds) (render cs)) = true ↔
      cs <+: ds ∨ ds <+: cs := by
  rw [Bool.or_eq_true, Bool.or_eq_true, beq_iff_eq, render_inj hcs hds, within_render hcs hds,
    within_render hds hcs]
  constructor
  · rintro ((rfl | rfl | ⟨z, zs, rfl⟩) | rfl | ⟨z, zs, rfl⟩)
    · exact .inl List.prefix_rfl
    · exact .inl List.nil_prefix
    · exact .inl (List.prefix_append _ _)
    · exact .inr List.nil_prefix
    · exact .inr (List.prefix_append _ _)
  · rintro (⟨rest, rfl⟩ | ⟨rest, rfl⟩)
    · cases rest with
      | nil => exact .inl (.inl (List.append_nil _).symm)
      | cons z zs => exact .inl (.inr (.inr ⟨z, zs, rfl⟩))
    · cases rest with
      | nil => exact .inl (.inl (List.append_nil _))
      | cons z zs => exact .inr (.inr ⟨z, zs, rfl⟩)

/-- The components of what `normalizePath` answers. -/
def parts (env : ClientEnv) (p : String) : List String := components (normalizePath env p)

theorem parts_plain (env : ClientEnv) (p : String) : ∀ c ∈ parts env p, Plain c :=
  components_plain _

theorem normalizePath_eq (env : ClientEnv) (p : String) : normalizePath env p = render (parts env p) := by
  have hform : ∃ q, normalizePath env p = render (components q) := ⟨_, rfl⟩
  obtain ⟨q, hq⟩ := hform
  rw [parts, hq, components_render (components_plain q)]

/-- The paths overlap exactly when the components of one start those of the other. -/
theorem pathsOverlap_iff (env : ClientEnv) (a b : String) :
    pathsOverlap env a b = true ↔ parts env a <+: parts env b ∨ parts env b <+: parts env a := by
  have hoverlap := overlap_render (parts_plain env a) (parts_plain env b)
  rwa [← normalizePath_eq, ← normalizePath_eq] at hoverlap

end Overlap

/-! ## Spellings -/

/-- The path starts at the root or at the home directory. -/
def Rooted (p : String) : Prop :=
  isAbsolute p = true ∨ p = "~" ∨ ∃ rest, p = "~/" ++ rest

/-- One slash, one dot segment or one component that is taken back. -/
inductive Respelled : String → String → Prop
  | slash {u v : String} (h : Rooted (u ++ "/")) : Respelled (u ++ "/" ++ ("/" ++ v)) (u ++ "/" ++ v)
  | trailing {u : String} (h : Rooted u) : Respelled (u ++ "/" ++ "") u
  | dot {u v : String} (h : Rooted (u ++ "/")) : Respelled (u ++ "/" ++ ("./" ++ v)) (u ++ "/" ++ v)
  | lastDot {u : String} (h : Rooted (u ++ "/")) : Respelled (u ++ "/" ++ ".") (u ++ "/" ++ "")
  | dots {u c v : String} (h : Rooted (u ++ "/")) (hc : Plain c) :
      Respelled (u ++ "/" ++ (c ++ "/" ++ ("../" ++ v))) (u ++ "/" ++ v)
  | lastDots {u c : String} (h : Rooted (u ++ "/")) (hc : Plain c) :
      Respelled (u ++ "/" ++ (c ++ "/" ++ "..")) (u ++ "/" ++ "")
  | rootDots {v : String} : Respelled ("" ++ "/" ++ ("../" ++ v)) ("" ++ "/" ++ v)

section Spellings

variable {env : ClientEnv} {u v w p q : String}

theorem isAbsolute_append (h : isAbsolute u = true) (v : String) : isAbsolute (u ++ v) = true := by
  rw [isAbsolute, beq_iff_eq] at h ⊢
  rw [String.toList_append, List.head?_append, h]
  rfl

theorem exists_of_isAbsolute (h : isAbsolute p = true) : ∃ rest, p.toList = '/' :: rest := by
  rw [isAbsolute, beq_iff_eq] at h
  cases hp : p.toList with
  | nil =>
      rw [hp] at h
      cases h
  | cons c rest =>
      rw [hp] at h
      exact ⟨rest, by rw [Option.some.inj h]⟩

theorem normalizePath_of_isAbsolute (h : isAbsolute p = true) :
    normalizePath env p = render (components p) := by
  obtain ⟨rest, hrest⟩ := exists_of_isAbsolute h
  have hresolve : normalizePath env p = resolvePath env p := by
    unfold normalizePath
    dsimp only
    split
    · rename_i hp
      rw [hrest] at hp
      exact absurd (List.cons.inj hp).1 (by decide)
    · rename_i hp
      rw [hrest] at hp
      exact absurd (List.cons.inj hp).1 (by decide)
    · rfl
  rw [hresolve, resolvePath, if_pos h]
  rfl

theorem parts_of_isAbsolute (h : isAbsolute p = true) : parts env p = components p := by
  rw [parts, normalizePath_of_isAbsolute h, components_render (components_plain p)]

theorem components_append (u w : String) :
    components (u ++ "/" ++ w) = (Text.split '/' w).foldl pushComponent (components u) := by
  rw [components, split_append, List.foldl_append]
  rfl

/-- At the home directory. -/
theorem parts_home (hhome : isAbsolute env.homedir = true) (w : String) :
    parts env ("~/" ++ w) = (Text.split '/' w).foldl pushComponent (components env.homedir) := by
  have hne : env.homedir ≠ "" := by
    intro h
    rw [h] at hhome
    exact absurd hhome (by decide)
  have hexpand : normalizePath env ("~/" ++ w) = resolvePath env (joinPath env.homedir w) := by
    have hlist : ("~/" ++ w).toList = '~' :: '/' :: w.toList := by
      rw [String.toList_append]
      rfl
    rw [normalizePath, hlist]
    change resolvePath env (joinPath env.homedir (String.ofList w.toList)) = _
    rw [String.ofList_toList]
  rw [parts, hexpand, resolvePath]
  by_cases hw : w = ""
  · subst hw
    have hjoin : joinPath env.homedir "" = env.homedir := by simp [joinPath, hne]
    rw [hjoin, if_pos hhome]
    exact components_render (components_plain env.homedir)
  · have hjoin : joinPath env.homedir w = env.homedir ++ "/" ++ w := by
      simp [joinPath, hne, hw, String.append_assoc]
    rw [hjoin, if_pos (isAbsolute_append (isAbsolute_append hhome _) _), ← components_append]
    exact components_render (components_plain _)

theorem parts_home_alone (hhome : isAbsolute env.homedir = true) :
    parts env "~" = components env.homedir := by
  have hexpand : normalizePath env "~" = resolvePath env env.homedir := rfl
  rw [parts, hexpand, resolvePath, if_pos hhome]
  exact components_render (components_plain _)

/-- Behind a slash, the components are taken one by one. -/
theorem parts_behind (hhome : isAbsolute env.homedir = true) (h : Rooted (u ++ "/")) :
    ∃ base, ∀ w, parts env (u ++ "/" ++ w) = (Text.split '/' w).foldl pushComponent base := by
  rcases h with h | h | ⟨rest, h⟩
  · refine ⟨components u, fun w ↦ ?_⟩
    rw [parts_of_isAbsolute (isAbsolute_append h w), components_append]
  · have hlist := congrArg String.toList h
    rw [String.toList_append] at hlist
    cases hu : u.toList with
    | nil =>
        rw [hu] at hlist
        exact absurd (List.cons.inj hlist).1 (by decide)
    | cons c cs =>
        rw [hu] at hlist
        exact absurd (List.cons.inj hlist).2 (by simp)
  · have hlist := congrArg String.toList h
    rw [String.toList_append, String.toList_append] at hlist
    rcases List.eq_nil_or_concat rest.toList with hrest | ⟨front, last, hrest⟩
    · have hu : u = "~" := by
        rw [hrest, List.append_nil] at hlist
        exact String.toList_inj.mp (List.append_inj_left' hlist rfl)
      refine ⟨components env.homedir, fun w ↦ ?_⟩
      rw [hu, show "~" ++ "/" ++ w = "~/" ++ w from rfl, parts_home hhome]
    · have hu : u = "~/" ++ String.ofList front := by
        rw [hrest, List.concat_eq_append, ← List.append_assoc] at hlist
        have hfront : u.toList = "~/".toList ++ front := List.append_inj_left' hlist rfl
        exact String.toList_inj.mp (by simpa using hfront)
      refine ⟨(Text.split '/' (String.ofList front)).foldl pushComponent (components env.homedir),
        fun w ↦ ?_⟩
      have hshape : u ++ "/" ++ w = "~/" ++ (String.ofList front ++ "/" ++ w) := by
        rw [hu]
        simp [String.append_assoc]
      rw [hshape, parts_home hhome, split_append, List.foldl_append]

theorem parts_trailing (hhome : isAbsolute env.homedir = true) (h : Rooted u) :
    parts env (u ++ "/" ++ "") = parts env u := by
  rcases h with h | rfl | ⟨rest, rfl⟩
  · rw [parts_of_isAbsolute h, parts_of_isAbsolute (isAbsolute_append (isAbsolute_append h _) _),
      components_append]
    rfl
  · rw [show "~" ++ "/" ++ "" = "~/" ++ "" from rfl, parts_home hhome, parts_home_alone hhome]
    rfl
  · rw [show "~/" ++ rest ++ "/" ++ "" = "~/" ++ (rest ++ "/" ++ "") by simp [String.append_assoc],
      parts_home hhome, parts_home hhome, split_append, List.foldl_append]
    rfl

/-- A path is the same however it is spelled. -/
theorem parts_respelled (hhome : isAbsolute env.homedir = true) (h : Respelled p q) :
    parts env p = parts env q := by
  have hpush : ∀ (stack : List String) (c : String), Plain c →
      pushComponent (pushComponent stack c) ".." = stack := by
    intro stack c hc
    rw [pushComponent_of_plain hc]
    simp [pushComponent]
  have hone : ∀ c : String, '/' ∉ c.toList → Text.split '/' c = [c] := by
    intro c hc
    rw [Text.split, List.splitOn_eq_singleton hc]
    simp
  cases h with
  | slash h =>
      rename_i u v
      obtain ⟨base, hbase⟩ := parts_behind hhome h
      rw [hbase, hbase, show "/" ++ v = "" ++ "/" ++ v by simp, split_append]
      rfl
  | trailing h => exact parts_trailing hhome h
  | dot h =>
      rename_i u v
      obtain ⟨base, hbase⟩ := parts_behind hhome h
      rw [hbase, hbase, show "./" ++ v = "." ++ "/" ++ v by simp, split_append]
      rfl
  | lastDot h =>
      obtain ⟨base, hbase⟩ := parts_behind hhome h
      rw [hbase, hbase]
      rfl
  | dots h hc =>
      rename_i u c v
      obtain ⟨base, hbase⟩ := parts_behind hhome h
      rw [hbase, hbase, split_append, show "../" ++ v = ".." ++ "/" ++ v by simp,
        split_append, hone c hc.no_slash, hone ".." (by decide), List.singleton_append, List.foldl_cons,
        List.singleton_append, List.foldl_cons, hpush _ _ hc]
  | lastDots h hc =>
      rename_i u c
      obtain ⟨base, hbase⟩ := parts_behind hhome h
      rw [hbase, hbase, split_append, hone c hc.no_slash, hone ".." (by decide), List.singleton_append,
        List.foldl_cons, List.foldl_cons, hpush _ _ hc]
      rfl
  | rootDots =>
      rename_i v
      have habsolute : ∀ w, isAbsolute ("" ++ "/" ++ w) = true := fun w ↦
        isAbsolute_append (by decide) w
      rw [parts_of_isAbsolute (habsolute _), parts_of_isAbsolute (habsolute _), components_append,
        components_append, show "../" ++ v = ".." ++ "/" ++ v by simp,
        split_append, hone ".." (by decide)]
      rfl

end Spellings

end RemoteDevbox.Client
