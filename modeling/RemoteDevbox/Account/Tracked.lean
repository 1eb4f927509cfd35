import RemoteDevbox.Account.Ownership

namespace RemoteDevbox.Account

/-!
# Who is logged in

A swap parks what it finds in the tree under the active label, and `add` under its
own. What it parks fits the label if the account of the label was logged in when the
command began, and nothing logged in since.
-/

section

variable (accountOf : String → AccountId)

/-- What is logged in is of one account: the label's, if it has one. -/
def TreeIs (w : World) (label : String) : Prop :=
  ∃ a, (∀ identity cred, w.identity.live = some identity → w.credential.live = some cred →
    identity.account = a ∧ credentialAccount accountOf cred = a) ∧ ∀ b, owner w label = some b → a = b

/-- The tree's token is of another organisation than its identity, so that the
organisation check can tell. -/
def Torn (w : World) : Prop :=
  ∃ identity cred, w.identity.live = some identity ∧ w.credential.live = some cred ∧
    cred.accessToken ≠ "" ∧ normalOrg identity.oauthAccount.organizationUuid ≠ "" ∧
      normalOrg (credentialAccount accountOf cred).orgUuid ≠ "" ∧
        normalOrg (credentialAccount accountOf cred).orgUuid ≠
          normalOrg identity.oauthAccount.organizationUuid

/-- What is logged in may be parked under the label, or is found not to fit. -/
def TreeMeets (w : World) (label : String) : Prop :=
  Torn accountOf w ∨ TreeIs accountOf w label

/-- What `use` finds where it parks what is logged in. -/
def CaptureMeets (w : World) (u : Use) : Prop :=
  ∀ label, w.registry.active = some label → label ≠ u.label → TreeMeets accountOf w label

/-- The organisation check is answered where it has something to tell. -/
def Answered (w : World) (i : Inputs) : Pc → Prop
  | .verify .. => Torn accountOf w → i.org.isSome
  | _ => True

/-- A pair is copied for the active label, or for a new one. -/
def JobSees (w : World) (j : Job) : Prop :=
  TreeMeets accountOf w j.into ∧ ∀ u active, j = .use u active → w.registry.active = some active

/-- What a command knows of the tree and the registry before it parks anything. -/
def PcSees (w : World) : Pc → Prop
  | .useCheck u | .useActive u => CaptureMeets accountOf w u
  | .useStore u => w.registry.active = some u.label
  | .useRunning _ active false | .useLock _ active false | .useTree _ active false =>
      active = w.registry.active ∧ ∀ label, active = some label → TreeMeets accountOf w label
  | .extract j => JobSees accountOf w j
  | .save j identity => JobSees accountOf w j ∧ w.identity.live = some identity
  | .verify j identity cred => JobSees accountOf w j ∧ w.identity.live = some identity ∧
      w.credential.live = some cred
  | .stash _ active _ _ => w.registry.active = some active
  | .addCheck label | .addLock label => TreeMeets accountOf w label
  | _ => True

variable {accountOf} {w : World}

/-- Without a credential nothing is logged in. -/
theorem treeMeets_of_none (h : w.credential.live = none) (label : String) :
    TreeMeets accountOf w label := by
  refine .inr ⟨(owner w label).getD ⟨"", ""⟩, fun identity cred _ hcred ↦ ?_, fun b hb ↦ ?_⟩
  · rw [h] at hcred
    cases hcred
  · rw [hb, Option.getD_some]

/-- A pair that the check finds not to fit is set aside, or not adopted. -/
theorem verify_next (store : Store) (i : Inputs) (w : World) (j : Job) (identity : Identity)
    (cred : Credential) :
    (∃ u active, j = .use u active ∧
      (Pc.verify j identity cred).next store i w = (.none, .stash u active identity cred)) ∨
    (Pc.verify j identity cred).next store i w = (.none, .unlock) ∨
    (Pc.verify j identity cred).next store i w = (.none, .commitIdentity j identity cred) := by
  simp only [Pc.next]
  split
  · cases j with
    | use u active => exact .inl ⟨u, active, rfl, rfl⟩
    | add label => exact .inr (.inl rfl)
  · exact .inr (.inr rfl)

theorem sees_next (store : Store) (i : Inputs) {pc : Pc} (h : PcSees accountOf w pc) :
    PcSees accountOf (w.apply (pc.next store i w).1) (pc.next store i w).2 := by
  cases pc with
  | useCheck u =>
      simp only [Pc.next]
      split
      · exact h
      · exact trivial
  | useActive u =>
      simp only [Pc.next]
      split
      · rename_i hactive
        exact hactive
      · rename_i hother
        exact ⟨rfl, fun label hlabel ↦ h label hlabel fun heq ↦ hother (heq ▸ hlabel)⟩
  | useStore u =>
      simp only [Pc.next]
      split
      · exact trivial
      · rename_i hmissing
        refine ⟨h.symm, fun label _ ↦ treeMeets_of_none ?_ label⟩
        simpa using hmissing
  | useRunning u active healOnly =>
      simp only [Pc.next]
      split
      · exact trivial
      · cases healOnly with
        | true => exact trivial
        | false => exact h
  | useLock u active healOnly =>
      simp only [Pc.next]
      split
      · exact trivial
      · cases healOnly with
        | true => exact trivial
        | false => exact h
  | useTree u active healOnly =>
      simp only [Pc.next]
      split
      · rename_i hcaptures
        obtain rfl : healOnly = false := by simpa using ((Bool.and_eq_true _ _).mp hcaptures).2
        cases active with
        | none => exact trivial
        | some active =>
            refine ⟨h.2 active rfl, ?_⟩
            rintro _ _ ⟨⟩
            exact h.1.symm
      · exact trivial
  | extract j =>
      simp only [Pc.next]
      split
      · exact trivial
      · rename_i identity hlive
        exact ⟨h, hlive⟩
  | save j identity =>
      simp only [Pc.next]
      split
      · exact trivial
      · rename_i cred hlive
        exact ⟨h.1, h.2, hlive⟩
  | verify j identity cred =>
      have hnext := verify_next store i w j identity cred
      generalize (Pc.verify j identity cred).next store i w = next at hnext ⊢
      obtain ⟨u, active, rfl, rfl⟩ | rfl | rfl := hnext
      · exact h.1.2 u active rfl
      · exact trivial
      · exact trivial
  | addCheck label =>
      simp only [Pc.next]
      split
      · exact h
      · exact trivial
  | addLock label =>
      simp only [Pc.next]
      split
      · exact trivial
      · refine ⟨h, ?_⟩
        rintro _ _ ⟨⟩
  | commitCredential j _ => cases j <;> exact trivial
  | healRead g | healWrite g _ =>
      cases g <;> simp only [Pc.next]
      all_goals
        repeat' split
        all_goals exact trivial
  | _ =>
      simp only [Pc.next]
      repeat' split
      all_goals exact trivial

/-- What is copied then fits the label it is for, or the check finds that it does
not. -/
theorem PcSees.captureFits {i : Inputs} {pc : Pc} (h : PcSees accountOf w pc)
    (hanswered : Answered accountOf w i pc)
    (htrue : ∀ j identity cred, pc = .verify j identity cred →
      i.org = none ∨ i.org = some (accountOf cred.accessToken).orgUuid) :
    CaptureFits accountOf w i pc := by
  cases pc with
  | verify j identity cred =>
      obtain ⟨⟨hmeets, _⟩, hidentity, hcred⟩ := h
      rcases hmeets with htorn | ⟨a, htree, howner⟩
      · have hsome := hanswered htorn
        obtain ⟨identity', cred', hidentity', hcred', htoken, hwant, hgot, hdiffer⟩ := htorn
        obtain rfl := Option.some.inj (hidentity.symm.trans hidentity')
        obtain rfl := Option.some.inj (hcred.symm.trans hcred')
        have horg : i.org = some (credentialAccount accountOf cred).orgUuid := by
          refine (htrue j identity cred rfl).resolve_left fun hnone ↦ ?_
          rw [hnone] at hsome
          cases hsome
        refine .inl ?_
        simp only [verifyOrg, horg, Option.map_some, if_neg hwant, if_neg htoken, if_neg hgot,
          if_neg hdiffer]
      · obtain ⟨hsame, hsame'⟩ := htree identity cred hidentity hcred
        exact .inr ⟨hsame.trans hsame'.symm, fun b hb ↦ hsame.trans (howner b hb)⟩
  | _ => exact trivial

/-- A tree that holds one account is not torn. -/
theorem TreeIs.not_torn {label : String} (h : TreeIs accountOf w label) : ¬Torn accountOf w := by
  rintro ⟨identity, cred, hidentity, hcred, _, _, _, hdiffer⟩
  obtain ⟨a, htree, _⟩ := h
  obtain ⟨rfl, hsame⟩ := htree identity cred hidentity hcred
  rw [hsame] at hdiffer
  exact hdiffer rfl

end

end RemoteDevbox.Account
