import RemoteDevbox.Client.Transcript
import RemoteDevbox.Lib.Js.Json

namespace RemoteDevbox.Client.Transcript

open Js Substitution

/-!
# Staging a sidecar directory

Every regular file of the tree is written under its own path, rewritten or as it is.
-/

/-! ## Transcripts, line by line -/

/-- White space, as `trim` removes it. -/
def isSpace (c : CodeUnit) : Bool :=
  let n := c.toNat
  (9 ≤ n && n ≤ 13) || n == 0x20 || n == 0xA0 || n == 0x1680 || (0x2000 ≤ n && n ≤ 0x200A) ||
    n == 0x2028 || n == 0x2029 || n == 0x202F || n == 0x205F || n == 0x3000 || n == 0xFEFF

/-- `line.trim() === ""` -/
def isBlank (line : Units) : Bool := line.all isSpace

/-- The lines of a transcript that are not blank. -/
def entries (content : Units) : List Units := (content.splitOn (unit '\n')).filter (!isBlank ·)

/-- `rewriteJsonl`; `none` when a rewritten line is not JSON. -/
def rewriteJsonl (content : Units) (mappings : List Mapping) : Option Units := do
  let out ← (entries content).mapM fun line ↦
    let rewritten := applyMappings line mappings
    if Json.parses rewritten then some rewritten else none
  return [unit '\n'].intercalate out ++ [unit '\n']

/-! ## The tree -/

/-- The entries of a directory in which there are no symbolic links: files with their bytes,
directories with their own entries, and anything else. -/
inductive Listing where
  | done
  | file (name : String) (bytes : ByteArray) (rest : Listing)
  | dir (name : String) (entries rest : Listing)
  | other (name : String) (rest : Listing)

/-- A file by its path, the components below the root. -/
structure File where
  path : List String
  bytes : ByteArray

/-- `extname(name)`: from the last dot on, unless the name starts there. -/
def extname (name : String) : String :=
  let tail := name.toList.reverse.takeWhile (· ≠ '.')
  if tail.length + 1 < name.toList.length then String.ofList ('.' :: tail.reverse) else ""

def TEXT_EXTS : List String := [".jsonl", ".json", ".js", ".txt", ".log", ".md"]

/-- `text.includes(part)` -/
def includes (text part : Units) : Bool := text.tails.any part.isPrefixOf

/-- The bytes that a file is staged with. -/
def stageFile (mappings : List Mapping) (name : String) (bytes : ByteArray) : Option ByteArray :=
  let ext := extname name
  let text := if TEXT_EXTS.contains ext then decode bytes else none
  match text with
  | some text =>
      if ext == ".jsonl" then (rewriteJsonl text mappings).map encode
      else if mappings.any fun m ↦ includes text m.source then
        some (encode (applyMappings text mappings))
      else some bytes
  | none => some bytes

structure Stats where
  files : ℕ
  bytes : ℕ

/-- What is staged, and the counts, from the directory `rel` on. -/
def walk (mappings : List Mapping) (rel : List String) :
    Listing → List File × Stats → Option (List File × Stats)
  | .done, staged => some staged
  | .file name bytes rest, (files, stats) => do
      let written ← stageFile mappings name bytes
      walk mappings rel rest
        (files ++ [⟨rel ++ [name], written⟩], ⟨stats.files + 1, stats.bytes + bytes.size⟩)
  | .dir name entries rest, staged => do
      let staged ← walk mappings (rel ++ [name]) entries staged
      walk mappings rel rest staged
  | .other _ rest, staged => walk mappings rel rest staged

def stageSidecar (src : Listing) (mappings : List Mapping) : Option (List File × Stats) :=
  walk mappings [] src ([], ⟨0, 0⟩)

/-! ## What is staged for a file -/

def File.name (f : File) : String := f.path.getLast?.getD ""

/-- The regular files below the directory `rel`. -/
def Listing.files (rel : List String) : Listing → List File
  | .done => []
  | .file name bytes rest => ⟨rel ++ [name], bytes⟩ :: rest.files rel
  | .dir name entries rest => entries.files (rel ++ [name]) ++ rest.files rel
  | .other _ rest => rest.files rel

/-- The rewritten lines of a transcript are JSON. -/
def LinesParse (mappings : List Mapping) (f : File) : Prop :=
  extname f.name = ".jsonl" → ∀ text, decode f.bytes = some text →
    ∀ line ∈ entries text, Json.parses (applyMappings line mappings) = true

/-- What is written for a file: its bytes, unless it is a transcript or a text in which a
source occurs. -/
structure Staged (mappings : List Mapping) (f : File) (written : ByteArray) : Prop where
  other : extname f.name ∉ TEXT_EXTS → written = f.bytes
  binary : decode f.bytes = none → written = f.bytes
  untouched : ∀ text, decode f.bytes = some text → extname f.name ≠ ".jsonl" →
    (∀ m ∈ mappings, ¬m.source <:+: text) → written = f.bytes
  text : ∀ text, decode f.bytes = some text → extname f.name ∈ TEXT_EXTS →
    extname f.name ≠ ".jsonl" → (∃ m ∈ mappings, m.source <:+: text) →
      ∃ out, Substituted mappings text out ∧ written = encode out
  transcript : ∀ text, decode f.bytes = some text → extname f.name = ".jsonl" →
    ∃ outs, List.Forall₂ (Substituted mappings) (entries text) outs ∧
      (∀ out ∈ outs, Json.parses out = true) ∧
      written = encode ([unit '\n'].intercalate outs ++ [unit '\n'])

theorem includes_iff {text part : Units} : includes text part = true ↔ part <:+: text := by
  simp only [includes, List.any_eq_true, List.mem_tails, List.isPrefixOf_iff_prefix]
  constructor
  · rintro ⟨t, hsuffix, hprefix⟩
    exact hprefix.isInfix.trans hsuffix.isInfix
  · rintro ⟨before, rest, rfl⟩
    exact ⟨part ++ rest, by rw [List.append_assoc]; exact List.suffix_append _ _,
      List.prefix_append _ _⟩

theorem rewrite_lines {mappings : List Mapping} {lines outs : List Units} :
    List.Forall₂ (fun line out ↦ (if Json.parses (applyMappings line mappings) = true then
        some (applyMappings line mappings) else none) = some out) lines outs ↔
      (∀ line ∈ lines, Json.parses (applyMappings line mappings) = true) ∧
        outs = lines.map (applyMappings · mappings) := by
  induction lines generalizing outs with
  | nil => simp
  | cons line lines ih =>
      simp only [List.forall₂_cons_left_iff, ih, List.forall_mem_cons, List.map_cons]
      constructor
      · rintro ⟨out, outs, hline, ⟨hlines, rfl⟩, rfl⟩
        obtain ⟨hparses, hout⟩ := Option.ite_none_right_eq_some.mp hline
        obtain rfl := Option.some.inj hout
        exact ⟨⟨hparses, hlines⟩, rfl⟩
      · rintro ⟨⟨hline, hlines⟩, rfl⟩
        exact ⟨_, _, if_pos hline, ⟨hlines, rfl⟩, rfl⟩

theorem rewriteJsonl_eq_some {content : Units} {mappings : List Mapping} {out : Units} :
    rewriteJsonl content mappings = some out ↔
      (∀ line ∈ entries content, Json.parses (applyMappings line mappings) = true) ∧
        out = [unit '\n'].intercalate ((entries content).map (applyMappings · mappings)) ++
          [unit '\n'] := by
  simp only [rewriteJsonl, Option.bind_eq_bind, Option.bind_eq_some_iff, Option.pure_def,
    Option.some.injEq, mapM_option_eq_some, rewrite_lines]
  constructor
  · rintro ⟨outs, ⟨hlines, rfl⟩, rfl⟩
    exact ⟨hlines, rfl⟩
  · rintro ⟨hlines, rfl⟩
    exact ⟨_, ⟨hlines, rfl⟩, rfl⟩

section Staging

variable {mappings : List Mapping} {f : File} {text : Units}

/-- A file whose bytes are staged as they are. -/
theorem stageFile_copied (h : ∀ text, decode f.bytes = some text → extname f.name ∈ TEXT_EXTS →
    extname f.name ≠ ".jsonl" ∧ ∀ m ∈ mappings, ¬m.source <:+: text) :
    stageFile mappings f.name f.bytes = some f.bytes := by
  simp only [stageFile]
  split
  · rename_i text htext
    split at htext
    · rename_i hext
      obtain ⟨hjsonl, hnone⟩ := h text htext (List.contains_iff_mem.mp hext)
      have hany : (mappings.any fun m ↦ includes text m.source) = false := by
        rw [List.any_eq_false]
        exact fun m hm ↦ by simpa [includes_iff] using hnone m hm
      rw [if_neg (by simpa using hjsonl), hany]
      rfl
    · cases htext
  · rfl

theorem stageFile_transcript (htext : decode f.bytes = some text)
    (hext : extname f.name = ".jsonl") :
    stageFile mappings f.name f.bytes = (rewriteJsonl text mappings).map encode := by
  have hmem : TEXT_EXTS.contains ".jsonl" = true := rfl
  simp only [stageFile, htext, hext, hmem, if_true, beq_self_eq_true]

theorem stageFile_text (htext : decode f.bytes = some text) (hmem : extname f.name ∈ TEXT_EXTS)
    (hext : extname f.name ≠ ".jsonl") (hm : ∃ m ∈ mappings, m.source <:+: text) :
    stageFile mappings f.name f.bytes = some (encode (applyMappings text mappings)) := by
  obtain ⟨m, hm, hsource⟩ := hm
  have hany : (mappings.any fun m ↦ includes text m.source) = true :=
    List.any_eq_true.mpr ⟨m, hm, includes_iff.mpr hsource⟩
  simp only [stageFile, List.contains_iff_mem.mpr hmem, if_true, htext]
  rw [if_neg (by simpa using hext), if_pos hany]

theorem stageFile_isSome :
    (stageFile mappings f.name f.bytes).isSome = true ↔ LinesParse mappings f := by
  by_cases hext : extname f.name = ".jsonl"
  · cases htext : decode f.bytes with
    | none =>
        rw [stageFile_copied fun text h ↦ by rw [htext] at h; cases h]
        refine iff_of_true rfl fun _ text h ↦ ?_
        rw [htext] at h
        cases h
    | some text =>
        rw [stageFile_transcript htext hext, Option.isSome_map, Option.isSome_iff_exists]
        simp only [rewriteJsonl_eq_some, exists_and_left, exists_eq, and_true]
        constructor
        · intro h _ text' htext'
          rw [htext] at htext'
          obtain rfl := Option.some.inj htext'
          exact h
        · exact fun h ↦ h hext text htext
  · have hparse : LinesParse mappings f := fun h ↦ absurd h hext
    refine iff_of_true ?_ hparse
    by_cases hsub : ∃ text, decode f.bytes = some text ∧ extname f.name ∈ TEXT_EXTS ∧
        ∃ m ∈ mappings, m.source <:+: text
    · obtain ⟨text, htext, hmem, hm⟩ := hsub
      rw [stageFile_text htext hmem hext hm]
      rfl
    · push Not at hsub
      rw [stageFile_copied fun text htext hmem ↦ ⟨hext, hsub text htext hmem⟩]
      rfl

theorem staged_stageFile (hms : Functional mappings) (hsorted : mappings.Pairwise longerFirst)
    {written : ByteArray} (h : stageFile mappings f.name f.bytes = some written) :
    Staged mappings f written := by
  have hcopied : (∀ text, decode f.bytes = some text → extname f.name ∈ TEXT_EXTS →
      extname f.name ≠ ".jsonl" ∧ ∀ m ∈ mappings, ¬m.source <:+: text) → written = f.bytes := by
    intro hcopy
    rw [stageFile_copied hcopy] at h
    exact (Option.some.inj h).symm
  refine ⟨fun hext ↦ ?_, fun htext ↦ ?_, fun text htext hext hnone ↦ ?_,
    fun text htext hmem hext hm ↦ ?_, fun text htext hext ↦ ?_⟩
  · exact hcopied fun _ _ hmem ↦ absurd hmem hext
  · refine hcopied fun text h ↦ ?_
    rw [htext] at h
    cases h
  · refine hcopied fun text' htext' _ ↦ ?_
    rw [htext] at htext'
    obtain rfl := Option.some.inj htext'
    exact ⟨hext, hnone⟩
  · rw [stageFile_text htext hmem hext hm] at h
    exact ⟨_, substituted_apply hms hsorted text, (Option.some.inj h).symm⟩
  · rw [stageFile_transcript htext hext, Option.map_eq_some_iff] at h
    obtain ⟨out, hout, rfl⟩ := h
    obtain ⟨hlines, rfl⟩ := rewriteJsonl_eq_some.mp hout
    refine ⟨_, ?_, ?_, rfl⟩
    · rw [List.forall₂_map_right_iff, List.forall₂_same]
      exact fun line _ ↦ substituted_apply hms hsorted line
    · simpa using hlines

/-! ## The whole tree -/

/-- What is staged in the place of a file. -/
def StagedAs (mappings : List Mapping) (f g : File) : Prop :=
  g.path = f.path ∧ stageFile mappings f.name f.bytes = some g.bytes

def bytesOf : List File → ℕ
  | [] => 0
  | f :: files => f.bytes.size + bytesOf files

theorem bytesOf_append (fs gs : List File) : bytesOf (fs ++ gs) = bytesOf fs + bytesOf gs := by
  induction fs with
  | nil => exact (Nat.zero_add _).symm
  | cons f fs ih => rw [List.cons_append, bytesOf, ih, bytesOf, Nat.add_assoc]

theorem name_concat (rel : List String) (name : String) (bytes : ByteArray) :
    File.name ⟨rel ++ [name], bytes⟩ = name := by
  rw [File.name, List.getLast?_concat]
  rfl

theorem staged_append {fs gs out : List File} (h : List.Forall₂ (StagedAs mappings) (fs ++ gs) out) :
    ∃ out₁ out₂, List.Forall₂ (StagedAs mappings) fs out₁ ∧
      List.Forall₂ (StagedAs mappings) gs out₂ ∧ out = out₁ ++ out₂ :=
  ⟨out.take fs.length, out.drop fs.length, (List.forall₂_take_append _ _ _ h.flip).flip,
    (List.forall₂_drop_append _ _ _ h.flip).flip, (List.take_append_drop ..).symm⟩

/-- The walk stages the files in their order, behind those it has, and counts them. -/
theorem walk_eq_some {listing : Listing} {rel : List String} {done : List File} {stats : Stats}
    {r : List File × Stats} : walk mappings rel listing (done, stats) = some r ↔
      ∃ out, List.Forall₂ (StagedAs mappings) (listing.files rel) out ∧
        r = (done ++ out, ⟨stats.files + (listing.files rel).length,
          stats.bytes + bytesOf (listing.files rel)⟩) := by
  induction listing generalizing rel done stats r with
  | done => simp [walk, Listing.files, bytesOf, eq_comm]
  | other name rest ih => exact ih
  | file name bytes rest ih =>
      simp only [walk, Option.bind_eq_bind, Option.bind_eq_some_iff, ih, Listing.files,
        List.forall₂_cons_left_iff]
      constructor
      · rintro ⟨written, hwritten, out, hout, rfl⟩
        have hstaged : StagedAs mappings ⟨rel ++ [name], bytes⟩ ⟨rel ++ [name], written⟩ :=
          ⟨rfl, by rw [name_concat]; exact hwritten⟩
        refine ⟨_, ⟨_, out, hstaged, hout, rfl⟩, ?_⟩
        simp only [bytesOf, List.append_assoc, List.singleton_append, List.length_cons,
          Nat.add_assoc, Nat.add_comm 1]
      · rintro ⟨_, ⟨⟨path, written⟩, out, ⟨rfl, hwritten⟩, hout, rfl⟩, rfl⟩
        rw [name_concat] at hwritten
        refine ⟨written, hwritten, out, hout, ?_⟩
        simp only [bytesOf, List.append_assoc, List.singleton_append, List.length_cons,
          Nat.add_assoc, Nat.add_comm 1]
  | dir name inner rest ihinner ihrest =>
      simp only [walk, Option.bind_eq_bind, Option.bind_eq_some_iff, Listing.files]
      constructor
      · rintro ⟨staged, hstaged, hrest⟩
        obtain ⟨out, hout, rfl⟩ := ihinner.mp hstaged
        obtain ⟨out', hout', rfl⟩ := ihrest.mp hrest
        refine ⟨out ++ out', List.rel_append hout hout', ?_⟩
        simp only [bytesOf_append, List.append_assoc, List.length_append, Nat.add_assoc]
      · rintro ⟨_, hboth, rfl⟩
        obtain ⟨out, out', hout, hout', rfl⟩ := staged_append hboth
        refine ⟨_, ihinner.mpr ⟨out, hout, rfl⟩, ihrest.mpr ⟨out', hout', ?_⟩⟩
        simp only [bytesOf_append, List.append_assoc, List.length_append, Nat.add_assoc]

theorem stageSidecar_isSome {src : Listing} : (stageSidecar src mappings).isSome = true ↔
    ∀ f ∈ src.files [], LinesParse mappings f := by
  rw [Option.isSome_iff_exists]
  constructor
  · rintro ⟨r, hr⟩ f hf
    obtain ⟨out, hout, -⟩ := walk_eq_some.mp hr
    obtain ⟨g, -, -, hg⟩ := forall₂_exists_left hout.flip hf
    exact stageFile_isSome.mp (Option.isSome_of_eq_some hg)
  · intro h
    have hfiles : ∀ f ∈ src.files [], ∃ g, StagedAs mappings f g := by
      intro f hf
      obtain ⟨bytes, hbytes⟩ := Option.isSome_iff_exists.mp (stageFile_isSome.mpr (h f hf))
      exact ⟨⟨f.path, bytes⟩, rfl, hbytes⟩
    obtain ⟨out, hout⟩ := exists_forall₂ hfiles
    exact ⟨_, walk_eq_some.mpr ⟨out, hout, rfl⟩⟩

end Staging

/-- A sidecar is staged exactly when every line of its transcripts stays JSON, and then file
by file: each under its own path and with its own bytes, but for the sources in its text. -/
theorem sidecar_staged {sourceRoot destRoot : Units} {opts : MappingOpts} {ms : List Mapping}
    (hroot : sourceRoot ≠ []) (hms : buildMappings sourceRoot destRoot opts = some ms)
    (src : Listing) :
    ((stageSidecar src ms).isSome = true ↔ ∀ f ∈ src.files [], LinesParse ms f) ∧
      ∀ staged stats, stageSidecar src ms = some (staged, stats) →
        List.Forall₂ (fun f g ↦ g.path = f.path ∧ Staged ms f g.bytes) (src.files []) staged ∧
          stats = ⟨(src.files []).length, bytesOf (src.files [])⟩ := by
  refine ⟨stageSidecar_isSome, fun staged stats hstaged ↦ ?_⟩
  obtain ⟨hfunctional, hsorted⟩ := functional_buildMappings hroot hms
  obtain ⟨out, hout, heq⟩ := walk_eq_some.mp hstaged
  obtain ⟨rfl, rfl⟩ := Prod.mk.inj heq
  refine ⟨?_, by simp only [Nat.zero_add]⟩
  exact hout.imp fun f g hfg ↦ ⟨hfg.1, staged_stageFile hfunctional hsorted hfg.2⟩

/-- A transcript of a subagent and a picture beside it. -/
def subagents : Listing :=
  .dir "subagents"
    (.file "a.jsonl" "\x7b\"cwd\":\"/x/app\"\x7d\n\n".toByteArray (.file "b.png" ⟨#[137, 80]⟩ .done))
    .done

def rooted : List Mapping := [⟨units "/x", units "/y"⟩, ⟨units "-x", units "-y"⟩]

theorem subagents_staged : ∃ staged, stageSidecar subagents rooted = some staged ∧
    List.Forall₂ (fun f g ↦ g.path = f.path ∧ Staged rooted f g.bytes) (subagents.files [])
      staged.1 := by
  have hms : buildMappings (units "/x") (units "/y") {} = some rooted := by decide +kernel
  have hsome : (stageSidecar subagents rooted).isSome = true := by decide +kernel
  obtain ⟨staged, hstaged⟩ := Option.isSome_iff_exists.mp hsome
  have hroot : units "/x" ≠ [] := by decide
  exact ⟨staged, hstaged, ((sidecar_staged hroot hms subagents).2 _ _ hstaged).1⟩

end RemoteDevbox.Client.Transcript
