import RemoteDevbox.Lib.Cut
import Mathlib.Data.List.DropRight
import Mathlib.Tactic.Common

namespace RemoteDevbox.Client.SshInclude

/-!
# The managed block of an ssh configuration

Linking puts a block with an `Include` line in front of the user's file. Unlinking takes the
block out and puts the shared payload there instead. The client edits the text with a regular
expression, the box line by line.
-/

abbrev Text := List Char

def MARK_START : Text := "# >>> devbox app-configs".toList

def MARK_END : Text := "# <<< devbox app-configs".toList

def includeLine (target : Text) : Text := "Include ".toList ++ target

def block (target : Text) : Text :=
  MARK_START ++ '\n' :: (includeLine target ++ '\n' :: (MARK_END ++ ['\n']))

/-! ## On the client -/

def linked (body : Text) : Bool := (cut MARK_START body).isSome

def linkClient (target body : Text) : Text := if linked body then body else block target ++ body

/-- `\n?` -/
def withoutNewline : Text → Text
  | '\n' :: text => text
  | text => text

/-- What `replace` leaves of `MARK_START[\s\S]*?MARK_END\n?`, the first match of which begins
at the first start mark if it has an end mark behind it, and ends at the first such. -/
def stripped (body : Text) : Text :=
  match cut MARK_START body with
  | none => body
  | some (before, rest) =>
      match cut MARK_END rest with
      | none => body
      | some (_, after) => before ++ withoutNewline after

def unlinkClient (payload : Option Text) (body : Text) : Text := payload.getD [] ++ stripped body

/-! ## On the box -/

/-- `grep -q '^MARK_START'` -/
def marked (text : Text) : Bool := (linesOf text).any MARK_START.isPrefixOf

/-- What `$(cat …)` gives. -/
def chomp (text : Text) : Text := text.rdropWhile (· == '\n')

def boxLink (target text : Text) : Text :=
  if marked text then text else block target ++ (chomp text ++ ['\n'])

/-- The line matches `^mark$`. -/
def isLine (mark line : Text) : Bool := line == mark || line == mark ++ ['\n']

/-- `sed '/^MARK_START$/,/^MARK_END$/d'`; whether a range is open. -/
def sed : Bool → List Text → List Text
  | _, [] => []
  | false, line :: lines =>
      if isLine MARK_START line then sed true lines else line :: sed false lines
  | true, line :: lines => if isLine MARK_END line then sed false lines else sed true lines

def boxUnlink (payload : Option Text) (text : Text) : Text :=
  if marked text then payload.getD [] ++ (sed false (linesOf text)).flatten else text

/-! ## There and back -/

variable {target body payload : Text}

theorem newline_notMem_start : '\n' ∉ MARK_START := by decide +kernel

theorem newline_notMem_end : '\n' ∉ MARK_END := by decide +kernel

theorem newline_notMem_include (h : '\n' ∉ target) : '\n' ∉ includeLine target := by
  have hword : '\n' ∉ "Include ".toList := by decide +kernel
  exact fun hmem ↦ (List.mem_append.mp hmem).elim hword h

/-- The end mark does not begin before the line that it is. -/
theorem end_first (h : ¬ MARK_END <:+: includeLine target) (after : Text) :
    cut MARK_END ('\n' :: (includeLine target ++ '\n' :: (MARK_END ++ after))) =
      some ('\n' :: (includeLine target ++ ['\n']), after) := by
  have hshape : '\n' :: (includeLine target ++ '\n' :: (MARK_END ++ after)) =
      '\n' :: (includeLine target ++ ['\n']) ++ (MARK_END ++ after) := by
    rw [List.cons_append, List.append_assoc]
    rfl
  rw [hshape]
  refine cut_append fun u v huv hv hstarts ↦ ?_
  -- `v` ends with the newline in front of the mark.
  obtain ⟨v', c, rfl⟩ := (List.eq_nil_or_concat' v).resolve_left hv
  have hlast : '\n' :: includeLine target = u ++ v' ∧ c = '\n' := by
    have hends : ('\n' :: includeLine target) ++ ['\n'] = (u ++ v') ++ [c] := by
      rw [List.append_assoc]
      exact huv
    obtain ⟨hinit, hc⟩ := List.append_inj' hends rfl
    exact ⟨hinit, (List.singleton_inj.mp hc).symm⟩
  obtain ⟨hline, rfl⟩ := hlast
  have hwithin : MARK_END <+: v' := by
    rw [List.append_assoc] at hstarts
    exact prefix_before_sep newline_notMem_end hstarts
  have hinfix : MARK_END <:+: '\n' :: includeLine target :=
    hwithin.isInfix.trans (hline ▸ (List.suffix_append u v').isInfix)
  rcases List.infix_cons_iff.mp hinfix with hhead | hlater
  · exact not_prefix_sep (by decide +kernel) newline_notMem_end hhead
  · exact h hlater

theorem block_append (after : Text) : block target ++ after =
    MARK_START ++ '\n' :: (includeLine target ++ '\n' :: (MARK_END ++ '\n' :: after)) := by
  rw [block, List.append_assoc, List.cons_append, List.append_assoc, List.cons_append,
    List.append_assoc]
  rfl

theorem cut_block (after : Text) : cut MARK_START (block target ++ after) =
    some ([], '\n' :: (includeLine target ++ '\n' :: (MARK_END ++ '\n' :: after))) := by
  rw [block_append]
  exact cut_of_prefix _

theorem unlinkClient_link (hbody : ¬ MARK_START <:+: body)
    (htarget : ¬ MARK_END <:+: includeLine target) :
    unlinkClient (some payload) (linkClient target body) = payload ++ body := by
  have hlinked : ¬ linked body = true := by
    rw [linked, cut_eq_none.mpr hbody]
    exact Bool.false_ne_true
  rw [unlinkClient, linkClient, if_neg hlinked, stripped, cut_block]
  dsimp only
  rw [end_first htarget]
  rfl

theorem linkClient_twice (target' : Text) :
    linkClient target' (linkClient target body) = linkClient target body := by
  by_cases hlinked : linked body = true
  · rw [linkClient, linkClient, if_pos hlinked, if_pos hlinked]
  · have hblock : linked (block target ++ body) = true := by
      rw [linked, cut_block]
      rfl
    rw [linkClient, linkClient, if_neg hlinked, if_pos hblock]

/-- The lines of the block, and those behind it. -/
theorem linesOf_block (htarget : '\n' ∉ target) (after : Text) :
    linesOf (block target ++ after) = (MARK_START ++ ['\n']) :: (includeLine target ++ ['\n']) ::
      (MARK_END ++ ['\n']) :: linesOf after := by
  rw [block_append, linesOf_line newline_notMem_start, linesOf_line (newline_notMem_include htarget),
    linesOf_line newline_notMem_end]

theorem marked_block (after : Text) : marked (block target ++ after) = true := by
  rw [block_append, marked, linesOf_line newline_notMem_start, List.any_cons, Bool.or_eq_true]
  exact .inl (List.isPrefixOf_iff_prefix.mpr (List.prefix_append _ _))

theorem boxLink_twice (target' : Text) :
    boxLink target' (boxLink target body) = boxLink target body := by
  by_cases hmarked : marked body = true
  · rw [boxLink, boxLink, if_pos hmarked, if_pos hmarked]
  · rw [boxLink, boxLink, if_neg hmarked, if_pos (marked_block _)]

/-- The lines that the box keeps are the user's own. -/
theorem sed_unmarked {lines : List Text} (h : ∀ line ∈ lines, ¬ MARK_START <+: line) :
    sed false lines = lines := by
  induction lines with
  | nil => rfl
  | cons line lines ih =>
      have hline : ¬ isLine MARK_START line = true := by
        intro hsame
        refine h line List.mem_cons_self ?_
        rcases (Bool.or_eq_true _ _).mp hsame with hsame | hsame
        · exact eq_of_beq hsame ▸ List.prefix_rfl
        · exact eq_of_beq hsame ▸ List.prefix_append _ _
      rw [sed, if_neg hline, ih fun line' hline' ↦ h line' (List.mem_cons_of_mem _ hline')]

theorem chomp_unmarked (h : marked body = false) :
    ∀ line ∈ linesOf (chomp body ++ ['\n']), ¬ MARK_START <+: line := by
  have hbody : ∀ line ∈ linesOf (chomp body), ¬ MARK_START <+: line := by
    intro line hline hstarts
    obtain ⟨more, hmore⟩ := List.rdropWhile_prefix (· == '\n') (l := body)
    obtain ⟨line', hline', hbegins⟩ := linesOf_mono more hline
    have hmarked : marked body = true := by
      refine List.any_eq_true.mpr ⟨line', ?_, List.isPrefixOf_iff_prefix.mpr (hstarts.trans hbegins)⟩
      rw [← hmore]
      exact hline'
    exact Bool.false_ne_true (h.symm.trans hmarked)
  intro line hline hstarts
  rcases linesOf_newline hline with rfl | ⟨line', hline', rfl | rfl⟩
  · exact not_prefix_sep (by decide +kernel) newline_notMem_start hstarts
  · exact hbody line hline' hstarts
  · exact hbody line' hline' (prefix_before_sep newline_notMem_start hstarts)

theorem boxUnlink_link (hbody : marked body = false) (htarget : '\n' ∉ target) :
    boxUnlink (some payload) (boxLink target body) = payload ++ (chomp body ++ ['\n']) := by
  have hstart : isLine MARK_START (MARK_START ++ ['\n']) = true := by decide +kernel
  have hend : isLine MARK_END (MARK_END ++ ['\n']) = true := by decide +kernel
  have hinclude : ¬ isLine MARK_END (includeLine target ++ ['\n']) = true := by
    intro hsame
    have hhead : ∀ text : Text, includeLine target ++ ['\n'] = MARK_END ++ text → False := by
      intro text hsame
      cases congrArg List.head? hsame
    rcases (Bool.or_eq_true _ _).mp hsame with hsame | hsame
    · exact hhead [] ((eq_of_beq hsame).trans (List.append_nil _).symm)
    · exact hhead ['\n'] (eq_of_beq hsame)
  rw [boxLink, if_neg (Bool.eq_false_iff.mp hbody), boxUnlink, if_pos (marked_block _),
    linesOf_block htarget, sed, if_pos hstart, sed, if_neg hinclude, sed, if_pos hend,
    sed_unmarked (chomp_unmarked hbody), flatten_linesOf]
  rfl

/-- Linking and unlinking gives the payload and the user's text back, on the box with one
newline at its end; a second link changes nothing. -/
theorem include_round_trip (htarget : ¬ MARK_END <:+: includeLine target ∧ '\n' ∉ target) :
    (¬ MARK_START <:+: body →
        unlinkClient (some payload) (linkClient target body) = payload ++ body) ∧
      (marked body = false →
        boxUnlink (some payload) (boxLink target body) = payload ++ (chomp body ++ ['\n'])) ∧
      (∀ target', linkClient target' (linkClient target body) = linkClient target body) ∧
      ∀ target', boxLink target' (boxLink target body) = boxLink target body :=
  ⟨fun hbody ↦ unlinkClient_link hbody htarget.1, fun hbody ↦ boxUnlink_link hbody htarget.2,
    linkClient_twice, boxLink_twice⟩

/-- A host of the payload, and one that the user keeps in the file. -/
theorem hosts_restored :
    unlinkClient (some "Host shared\n".toList)
        (linkClient "/sync/config".toList "Host own\n".toList) =
      "Host shared\n".toList ++ "Host own\n".toList ∧
    boxUnlink (some "Host shared\n".toList) (boxLink "/sync/config".toList "Host own\n".toList) =
      "Host shared\n".toList ++ (chomp "Host own\n".toList ++ ['\n']) := by
  have htarget : ¬ MARK_END <:+: includeLine "/sync/config".toList ∧
      '\n' ∉ "/sync/config".toList := by decide +kernel
  obtain ⟨hclient, hbox, -⟩ := include_round_trip htarget
  exact ⟨hclient (by decide +kernel), hbox (by decide +kernel)⟩

end RemoteDevbox.Client.SshInclude
