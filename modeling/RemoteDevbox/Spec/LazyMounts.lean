import RemoteDevbox.Client.PathOverlap
import RemoteDevbox.Spec.Validate.Developers

namespace RemoteDevbox.Spec

open Js Client

/-!
# Served paths

The validator compares the served paths of a developer two by two.
-/

section LazyMounts

variable {env : ClientEnv} {base : String} {mounts : List Val}

/-- Every mount is a record with a path. -/
theorem mounts_have_paths {seen : List String} {i : ℕ}
    (h : (validateMountLabels base seen i mounts).Passes) :
    ∀ m ∈ mounts, m.isRecord = true ∧ isNonEmptyString (m.get "path") = true := by
  induction mounts generalizing seen i with
  | nil => simp
  | cons m mounts ih =>
      rw [validateMountLabels] at h
      dsimp only at h
      split at h
      · rename_i hrecord
        obtain ⟨label, _, hbody⟩ := Check.passes_eval.mp h
        simp only [Check.passes_append, Check.passes_when] at hbody
        refine List.forall_mem_cons.mpr ⟨⟨hrecord, ?_⟩, ih hbody.2⟩
        by_contra hpath
        exact absurd (hbody.1.2 (by simpa using hpath)) (Check.not_passes_fail _ _)
      · exact absurd (Check.passes_append.mp h).1 (Check.not_passes_fail _ _)

theorem servedPath_of_str {m : Val} {p : String} (h : isNonEmptyString (m.get "path") = true)
    (hp : m.get "path" = .str p) : servedPath env m = some (normalizePath env p) := by
  rw [hp] at h
  have hblank : Text.nonBlank p = true := h
  rw [servedPath, hp]
  exact if_pos hblank

/-- A path that is normalized stays what it is. -/
theorem parts_normalizePath (env : ClientEnv) (p : String) :
    parts env (normalizePath env p) = parts env p := by
  have habsolute : isAbsolute (normalizePath env p) = true := by
    rw [normalizePath_eq, isAbsolute, toList_render]
    rfl
  rw [parts_of_isAbsolute habsolute]
  rfl

/-- No served path leads to another or lies under it. -/
def Apart (env : ClientEnv) (m n : Val) : Prop :=
  ∀ p q, m.get "path" = .str p → n.get "path" = .str q →
    ¬parts env p <+: parts env q ∧ ¬parts env q <+: parts env p

theorem apart_of_passes (h : (validateLazyMounts env (.arr mounts) base).Passes) :
    mounts.Pairwise (Apart env) := by
  rw [validateLazyMounts] at h
  dsimp only at h
  obtain ⟨hlabels, hpairs⟩ := Check.passes_append.mp h
  have hmounts := mounts_have_paths hlabels
  have hfilter : mounts.filter Val.isRecord = mounts :=
    List.filter_eq_self.mpr fun m hm ↦ (hmounts m hm).1
  rw [hfilter] at hpairs
  refine List.pairwise_iff_getElem.mpr fun i j hi hj hij p q hp hq ↦ ?_
  have hserved : ∀ (k : ℕ) (hk : k < mounts.length) (r : String), mounts[k].get "path" = .str r →
      (mounts.map (servedPath env))[k]? = some (some (normalizePath env r)) := by
    intro k hk r hr
    rw [List.getElem?_map, List.getElem?_eq_getElem hk, Option.map_some,
      servedPath_of_str (hmounts _ (List.getElem_mem hk)).2 hr]
  have hinner := Check.passes_eachIdx.mp (Check.passes_eachIdx.mp hpairs i _ (hserved i hi p hp)) j _
    (hserved j hj q hq)
  have hno : ¬pathsOverlap env (normalizePath env p) (normalizePath env q) = true := by
    intro hoverlap
    refine absurd (Check.passes_when.mp hinner ?_) (Check.not_passes_fail _ _)
    rw [hoverlap, Bool.and_true]
    exact decide_eq_true hij
  rw [pathsOverlap_iff, parts_normalizePath, parts_normalizePath, not_or] at hno
  exact hno

end LazyMounts

/-- Of all paths, whatever the home directory and the working directory are. -/
theorem overlap_of_components (env : ClientEnv) :
    (∀ a b, pathsOverlap env a b = true ↔ parts env a <+: parts env b ∨ parts env b <+: parts env a) ∧
      (∀ a b, pathsOverlap env a b = pathsOverlap env b a) ∧
      (∀ a, pathsOverlap env a a = true) ∧
      (isAbsolute env.homedir = true →
        ∀ p q, Respelled p q → ∀ b, pathsOverlap env p b = pathsOverlap env q b) ∧
      ∀ mounts base, (validateLazyMounts env (.arr mounts) base).Passes →
        mounts.Pairwise (Apart env) := by
  refine ⟨pathsOverlap_iff env, fun a b ↦ ?_, fun a ↦ ?_, fun hhome p q h b ↦ ?_,
    fun mounts base ↦ apart_of_passes⟩
  · rw [Bool.eq_iff_iff, pathsOverlap_iff, pathsOverlap_iff, or_comm]
  · exact (pathsOverlap_iff env a a).mpr (.inl List.prefix_rfl)
  · rw [Bool.eq_iff_iff, pathsOverlap_iff, pathsOverlap_iff, parts_respelled hhome h]

def adaClient : ClientEnv := ⟨"/home/ada", "/"⟩

/-- A doubled slash under the home directory makes no difference. -/
theorem doubled_slash_overlaps : pathsOverlap adaClient ("~" ++ "/" ++ ("/" ++ "src")) "/home/ada/src" =
    pathsOverlap adaClient ("~" ++ "/" ++ "src") "/home/ada/src" :=
  (overlap_of_components adaClient).2.2.2.1 (by decide) _ _ (.slash (.inr (.inr ⟨"", by decide⟩))) _

end RemoteDevbox.Spec
