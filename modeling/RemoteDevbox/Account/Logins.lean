import Mathlib.Data.String.Basic
import RemoteDevbox.Account.Tracked

namespace RemoteDevbox.Account

/-!
# Logins that only the tree holds

A swap copies the live credential before it restores another one, or restores the
active label's, of which there is a copy if nothing has changed in the tree. The
credential is kept if nothing logs in between the copy and what replaces it.
-/

/-- The live credential is of this payload. -/
def LiveIs (w : World) (payload : String × String) : Prop :=
  ∃ cred, w.credential.live = some cred ∧ cred.payload = payload

/-- The vault or a backup has a copy. -/
def Stored (w : World) (payload : String × String) : Prop :=
  (∃ label cred, w.credential.parked label = some cred ∧ cred.payload = payload) ∨
    ∃ b ∈ w.backups, ∃ cred, b.credential = some cred ∧ cred.payload = payload

/-- There is a copy of the live credential, if there is one. -/
def LiveStored (w : World) : Prop :=
  ∀ cred, w.credential.live = some cred → Stored w cred.payload

/-- What a command knows of the live credential, of which it makes a copy or knows one. -/
def PcKept (w : World) : Pc → Prop
  | .useCheck u | .useActive u => w.registry.active = some u.label → LiveStored w
  | .useStore _ | .useCompare _ | .reload _ | .useRunning _ _ true | .useLock _ _ true
  | .useTree _ _ true | .identityApply .. | .healRead (.again _) | .healRead (.swap ..)
  | .storeLoad .. => LiveStored w
  | .healWrite (.again u) cred | .healWrite (.swap u _) cred => LiveStored w ∧
      ∃ old, w.credential.parked u.dir = some old ∧ old.payload = cred.payload
  | .verify (.use ..) _ cred | .commitIdentity (.use ..) _ cred
  | .commitCredential (.use ..) cred | .stash _ _ _ cred | .healLiveWrite _ cred =>
      LiveIs w cred.payload
  | .snapshot _ active => ∃ cred, w.credential.parked active = some cred ∧ LiveIs w cred.payload
  | .usePrune u => ∀ keep, u.keep = some keep → LiveStored (w.apply (.prune keep))
  | _ => True

/-- A pair that is set aside will be among the newest backups, of which a prune keeps
as many as the command says. -/
def StashStays (w : World) (i : Inputs) : Pc → Prop
  | .stash u _ _ _ => ∀ label keep, w.registry.active = some label → u.keep = some keep →
      (w.backups.filter fun b ↦ decide (i.now ++ "-" ++ label ++ "-mismatch" < b.name)).length < keep
  | _ => True

/-- The live credential is not replaced by another one of which no copy exists. -/
def KeepsLogin (w w' : World) : Prop :=
  ∀ cred, w.credential.live = some cred → LiveIs w' cred.payload ∨ Stored w' cred.payload

theorem keepsLogin_of_live {w w' : World} (h : w'.credential.live = w.credential.live) :
    KeepsLogin w w' :=
  fun cred hlive ↦ .inl ⟨cred, h.trans hlive, rfl⟩

theorem liveIs_stored {w : World} {payload : String × String} (hlive : LiveIs w payload)
    (hstored : Stored w payload) : LiveStored w := by
  obtain ⟨cred, hcred, rfl⟩ := hlive
  intro cred' hcred'
  rwa [← Option.some.inj (hcred.symm.trans hcred')]

theorem liveStored_of_none {w : World} (h : w.credential.live = none) : LiveStored w := by
  intro cred hcred
  rw [h] at hcred
  cases hcred

/-- Parking a credential of the payload that is there keeps every copy. -/
theorem stored_park {w : World} {label : String} {old cred : Credential} {payload : String × String}
    (hold : w.credential.parked label = some old) (hsame : old.payload = cred.payload)
    (h : Stored w payload) : Stored (w.apply (.parkCredential label cred)) payload := by
  rcases h with ⟨label', cred', hparked, hpayload⟩ | hbackup
  · by_cases heq : label' = label
    · subst heq
      obtain rfl := Option.some.inj (hold.symm.trans hparked)
      exact .inl ⟨_, cred, Slots.park_self, hsame.symm.trans hpayload⟩
    · exact .inl ⟨label', cred', (Slots.park_ne heq).trans hparked, hpayload⟩
  · exact .inr hbackup

/-! ## What a prune keeps -/

/-- Fewer than `keep` of the names are later. -/
theorem mem_newest {keep : ℕ} {backups : List Backup} {name : String}
    (hmem : name ∈ backups.map (·.name))
    (h : (backups.filter fun b ↦ decide (name < b.name)).length < keep) :
    name ∈ newest keep backups := by
  let names := (backups.map (·.name)).mergeSort fun a b ↦ decide (b ≤ a)
  have hperm : names.Perm (backups.map (·.name)) := List.mergeSort_perm ..
  have hsorted : names.Pairwise fun a b ↦ b ≤ a := by
    refine (List.pairwise_mergeSort (fun a b c hab hbc ↦ ?_) (fun a b ↦ ?_) _).imp of_decide_eq_true
    · exact decide_eq_true ((of_decide_eq_true hbc).trans (of_decide_eq_true hab))
    · rw [Bool.or_eq_true]
      exact (le_total b a).imp decide_eq_true decide_eq_true
  have hcount : (names.filter fun n ↦ decide (name < n)).length < keep := by
    rw [(hperm.filter _).length_eq, List.filter_map, List.length_map]
    exact h
  by_contra hout
  have hsplit : names.take keep ++ names.drop keep = names := List.take_append_drop keep names
  have hlate : name ∈ names.drop keep := by
    have hname : name ∈ names := hperm.mem_iff.mpr hmem
    rw [← hsplit, List.mem_append] at hname
    exact hname.resolve_left hout
  have hlater : ∀ n ∈ names.take keep, name < n := by
    intro n hn
    rw [← hsplit, List.pairwise_append] at hsorted
    refine lt_of_le_of_ne (hsorted.2.2 n hn name hlate) fun heq ↦ hout ?_
    rw [newest, heq]
    exact hn
  have hfull : (names.take keep).length = keep := by
    have hlength := List.length_pos_of_mem hlate
    rw [List.length_drop] at hlength
    rw [List.length_take]
    omega
  have hall : (names.take keep).filter (fun n ↦ decide (name < n)) = names.take keep :=
    List.filter_eq_self.mpr fun n hn ↦ decide_eq_true (hlater n hn)
  have hle := ((List.take_sublist keep names).filter fun n ↦ decide (name < n)).length_le
  rw [hall, hfull] at hle
  omega

theorem stored_prune_parked {w : World} {keep : ℕ} {label : String} {cred : Credential}
    (h : w.credential.parked label = some cred) : Stored (w.apply (.prune keep)) cred.payload :=
  .inl ⟨label, cred, h, rfl⟩

/-- What has just been set aside is kept. -/
theorem stored_prune_backup {w : World} {keep : ℕ} {b : Backup} {cred : Credential}
    (hcred : b.credential = some cred)
    (h : (w.backups.filter fun b' ↦ decide (b.name < b'.name)).length < keep) :
    Stored ((w.apply (.backup b)).apply (.prune keep)) cred.payload := by
  refine .inr ⟨b, List.mem_filter.mpr ⟨List.mem_cons_self, ?_⟩, cred, hcred, rfl⟩
  rw [List.contains_iff_mem]
  refine mem_newest (List.mem_map.mpr ⟨b, List.mem_cons_self, rfl⟩) ?_
  have hself : decide (b.name < b.name) = false := decide_eq_false (lt_irrefl _)
  change ((b :: w.backups.filter (·.name != b.name)).filter _).length < keep
  rw [List.filter_cons, hself]
  exact ((List.filter_sublist.filter _).length_le).trans_lt h

/-! ## One step of a command -/

/-- A pair that needs no healing. -/
theorem pcKept_healing_next {w : World} {g : Healing} (h : PcKept w (.healRead g)) :
    PcKept w g.next := by
  cases g with
  | again u => exact h
  | swap u captured => exact h
  | adopt label row => exact trivial

/-- A step of a command keeps the login, and what the command knows of it. -/
theorem kept_next (accountOf : String → AccountId) (store : Store) (i : Inputs) {w : World} {pc : Pc}
    (hpc : PcKept w pc) (hsees : PcSees accountOf w pc) (hstays : StashStays w i pc) :
    KeepsLogin w (w.apply (pc.next store i w).1) ∧
      PcKept (w.apply (pc.next store i w).1) (pc.next store i w).2 := by
  cases pc with
  | useCheck u =>
      simp only [Pc.next]
      split
      · exact ⟨keepsLogin_of_live rfl, hpc⟩
      · exact ⟨keepsLogin_of_live rfl, trivial⟩
  | useActive u =>
      simp only [Pc.next]
      split
      · rename_i hactive
        exact ⟨keepsLogin_of_live rfl, hpc hactive⟩
      · exact ⟨keepsLogin_of_live rfl, trivial⟩
  | useStore u =>
      simp only [Pc.next]
      split
      · exact ⟨keepsLogin_of_live rfl, hpc⟩
      · exact ⟨keepsLogin_of_live rfl, trivial⟩
  | useCompare u =>
      simp only [Pc.next]
      split <;> exact ⟨keepsLogin_of_live rfl, hpc⟩
  | useRunning u active healOnly | useLock u active healOnly =>
      simp only [Pc.next]
      split
      · exact ⟨keepsLogin_of_live rfl, trivial⟩
      · refine ⟨keepsLogin_of_live rfl, ?_⟩
        cases healOnly with
        | true => exact hpc
        | false => exact trivial
  | useTree u active healOnly =>
      simp only [Pc.next]
      split
      · cases active <;> exact ⟨keepsLogin_of_live rfl, trivial⟩
      · rename_i hskips
        refine ⟨keepsLogin_of_live rfl, ?_⟩
        cases healOnly with
        | true => exact hpc
        | false => exact liveStored_of_none (by simpa using hskips)
  | save j identity =>
      simp only [Pc.next]
      split
      · exact ⟨keepsLogin_of_live rfl, trivial⟩
      · rename_i cred hlive
        refine ⟨keepsLogin_of_live rfl, ?_⟩
        cases j with
        | use u active => exact ⟨cred, hlive, rfl⟩
        | add label => exact trivial
  | verify j identity cred =>
      simp only [Pc.next]
      cases j with
      | use u active => split <;> exact ⟨keepsLogin_of_live rfl, hpc⟩
      | add label => split <;> exact ⟨keepsLogin_of_live rfl, trivial⟩
  | commitIdentity j identity cred =>
      refine ⟨keepsLogin_of_live rfl, ?_⟩
      cases j with
      | use u active => exact hpc
      | add label => exact trivial
  | commitCredential j cred =>
      refine ⟨keepsLogin_of_live rfl, ?_⟩
      cases j with
      | use u active => exact ⟨cred, Slots.park_self, hpc⟩
      | add label => exact trivial
  | snapshot u active =>
      obtain ⟨cred, hparked, hlive⟩ := hpc
      refine ⟨keepsLogin_of_live rfl, fun keep _ ↦ ?_⟩
      exact liveIs_stored hlive (stored_prune_parked hparked)
  | stash u active identity cred =>
      refine ⟨keepsLogin_of_live rfl, fun keep hkeep ↦ ?_⟩
      exact liveIs_stored hpc (stored_prune_backup rfl (hstays active keep hsees hkeep))
  | usePrune u =>
      simp only [Pc.next]
      split
      · exact ⟨keepsLogin_of_live rfl, trivial⟩
      · rename_i keep hkeep
        exact ⟨keepsLogin_of_live rfl, hpc keep hkeep⟩
  | identityApply u captured => exact ⟨keepsLogin_of_live rfl, hpc⟩
  | healRead g =>
      simp only [Pc.next]
      split
      · rename_i identity cred _ hparked
        split
        · exact ⟨keepsLogin_of_live rfl, pcKept_healing_next hpc⟩
        · refine ⟨keepsLogin_of_live rfl, ?_⟩
          cases g with
          | adopt label row => exact trivial
          | again u => exact ⟨hpc, cred, hparked, (heal_payload identity cred).symm⟩
          | swap u captured => exact ⟨hpc, cred, hparked, (heal_payload identity cred).symm⟩
      · exact ⟨keepsLogin_of_live rfl, pcKept_healing_next hpc⟩
  | healWrite g cred =>
      refine ⟨keepsLogin_of_live rfl, ?_⟩
      cases g with
      | adopt label row => exact trivial
      | again u | swap u captured =>
          obtain ⟨hstored, old, hold, hsame⟩ := hpc
          exact fun live hlive ↦ stored_park hold hsame (hstored live hlive)
  | reload u =>
      simp only [Pc.next]
      split
      · exact ⟨fun live hlive ↦ .inr (hpc live hlive), trivial⟩
      · exact ⟨keepsLogin_of_live rfl, trivial⟩
  | storeLoad u captured =>
      simp only [Pc.next]
      split
      · refine ⟨fun live hlive ↦ .inr (hpc live hlive), ?_⟩
        split <;> exact trivial
      · exact ⟨keepsLogin_of_live rfl, trivial⟩
  | healLiveRead u =>
      simp only [Pc.next]
      split
      · rename_i identity cred _ hlive
        split
        · exact ⟨keepsLogin_of_live rfl, trivial⟩
        · exact ⟨keepsLogin_of_live rfl, cred, hlive, (heal_payload identity cred).symm⟩
      · exact ⟨keepsLogin_of_live rfl, trivial⟩
  | healLiveWrite u cred =>
      obtain ⟨old, hold, hsame⟩ := hpc
      refine ⟨fun live hlive ↦ .inl ⟨cred, rfl, ?_⟩, trivial⟩
      rw [← hsame, Option.some.inj (hold.symm.trans hlive)]
  | _ =>
      -- the credential stays as it is, and no copy of it is known
      simp only [Pc.next]
      repeat' split
      all_goals exact ⟨keepsLogin_of_live rfl, trivial⟩

end RemoteDevbox.Account
