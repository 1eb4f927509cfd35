import RemoteDevbox.Account.Script

namespace RemoteDevbox.Account

/-!
# Whose pair is parked where

A label belongs to the account of its row. What a command parks under it is what
it found in the tree, so the labels stay in order as long as the tree's account
is the right one whenever a pair is captured.
-/

section

variable (accountOf : String → AccountId)

/-- The account whose token a credential holds. -/
def credentialAccount (cred : Credential) : AccountId := accountOf cred.accessToken

/-- The account that a label was adopted for. -/
def owner (w : World) (label : String) : Option AccountId :=
  (w.registry.accounts label).map Info.account

/-- What is parked under a label belongs to the label's account. -/
structure OwnedPairs (w : World) : Prop where
  identity : w.identity.Owned Identity.account (owner w)
  credential : w.credential.Owned (credentialAccount accountOf) (owner w)

/-- The pair parked under a label belongs to one account. -/
def PairOf (w : World) (label : String) (a : AccountId) : Prop :=
  (∀ identity, w.identity.parked label = some identity → identity.account = a) ∧
    ∀ cred, w.credential.parked label = some cred → credentialAccount accountOf cred = a

/-- A pair that may be parked under a label. -/
def Fits (w : World) (label : String) (identity : Identity) (cred : Credential) : Prop :=
  identity.account = credentialAccount accountOf cred ∧
    ∀ a, owner w label = some a → identity.account = a

/-- What a command holds, or has parked, is in order. -/
def PcOwn (w : World) : Pc → Prop
  | .commitIdentity j identity cred => Fits accountOf w j.into identity cred
  | .commitCredential j cred =>
      (∀ a, owner w j.into = some a → credentialAccount accountOf cred = a) ∧
        ∃ identity, w.identity.parked j.into = some identity ∧
          identity.account = credentialAccount accountOf cred
  | .adoptInfo label => ∃ identity, w.identity.parked label = some identity ∧
      PairOf accountOf w label identity.account
  | .healRead (.adopt label row) => PairOf accountOf w label row.account
  | .healWrite h cred =>
      (∀ a, owner w h.dir = some a → credentialAccount accountOf cred = a) ∧
        ∀ label row, h = .adopt label row → PairOf accountOf w label row.account ∧
          credentialAccount accountOf cred = row.account
  | .upsert label row => PairOf accountOf w label row.account
  | _ => True

/-- A copied pair fits the label it is for, or the organisation check finds that
its parts do not belong together. -/
def CaptureFits (w : World) (i : Inputs) : Pc → Prop
  | .verify j identity cred =>
      verifyOrg identity cred i.org = .differs ∨ Fits accountOf w j.into identity cred
  | _ => True

variable {accountOf}

section Effects

variable {w : World} {label : String}

theorem OwnedPairs.parkIdentity (h : OwnedPairs accountOf w) {identity : Identity}
    (hfits : ∀ a, owner w label = some a → identity.account = a) :
    OwnedPairs accountOf (w.apply (.parkIdentity label identity)) :=
  ⟨h.identity.park hfits, h.credential⟩

theorem OwnedPairs.parkCredential (h : OwnedPairs accountOf w) {cred : Credential}
    (hfits : ∀ a, owner w label = some a → credentialAccount accountOf cred = a) :
    OwnedPairs accountOf (w.apply (.parkCredential label cred)) :=
  ⟨h.identity, h.credential.park hfits⟩

theorem owner_upsert {row : Info} :
    owner (w.apply (.upsert label row)) = Function.update (owner w) label (some row.account) := by
  funext l
  by_cases heq : l = label
  · subst heq
    simp [owner, World.apply, Registry.upsert]
  · simp [owner, World.apply, Registry.upsert, Function.update_of_ne heq]

theorem owner_forget :
    owner (w.apply (.forget label)) = Function.update (owner w) label none := by
  funext l
  by_cases heq : l = label
  · subst heq
    simp [owner, World.apply, Registry.forget]
  · simp [owner, World.apply, Registry.forget, Function.update_of_ne heq]

theorem OwnedPairs.upsert (h : OwnedPairs accountOf w) {row : Info}
    (hpair : PairOf accountOf w label row.account) :
    OwnedPairs accountOf (w.apply (.upsert label row)) := by
  refine ⟨?_, ?_⟩
  · rw [owner_upsert]
    exact h.identity.adopt hpair.1
  · rw [owner_upsert]
    exact h.credential.adopt hpair.2

theorem OwnedPairs.forget (h : OwnedPairs accountOf w) :
    OwnedPairs accountOf (w.apply (.forget label)) := by
  refine ⟨?_, ?_⟩
  · rw [owner_forget]
    exact h.identity.disown
  · rw [owner_forget]
    exact h.credential.disown

theorem OwnedPairs.remove (h : OwnedPairs accountOf w) :
    OwnedPairs accountOf (w.apply (.remove label)) :=
  ⟨h.identity.forget, h.credential.forget⟩

/-- The pair under a label that has an owner. -/
theorem OwnedPairs.pairOf (h : OwnedPairs accountOf w) {a : AccountId}
    (howner : owner w label = some a) : PairOf accountOf w label a :=
  ⟨fun _ hparked ↦ h.identity label a _ howner hparked,
    fun _ hparked ↦ h.credential label a _ howner hparked⟩

end Effects

/-! ## One step of a command -/

theorem pcOwn_healing_next {w : World} {h : Healing}
    (hpair : ∀ label row, h = .adopt label row → PairOf accountOf w label row.account) :
    PcOwn accountOf w h.next := by
  cases h with
  | again u => exact trivial
  | swap u captured => exact trivial
  | adopt label row => exact hpair label row rfl

/-- A step of a command whose capture fits keeps everything in order. -/
theorem own_next (store : Store) {i : Inputs} {w : World} {pc : Pc}
    (h : OwnedPairs accountOf w) (hpc : PcOwn accountOf w pc)
    (hfits : CaptureFits accountOf w i pc) :
    OwnedPairs accountOf (w.apply (pc.next store i w).1) ∧
      PcOwn accountOf (w.apply (pc.next store i w).1) (pc.next store i w).2 := by
  cases pc with
  | verify j identity cred =>
      simp only [Pc.next]
      split
      · cases j <;> exact ⟨h, trivial⟩
      · rename_i hsame
        exact ⟨h, hfits.resolve_left hsame⟩
  | commitIdentity j identity cred =>
      exact ⟨h.parkIdentity hpc.2, fun a ha ↦ hpc.1.symm.trans (hpc.2 a ha), identity,
        Slots.park_self, hpc.1⟩
  | commitCredential j cred =>
      obtain ⟨howner, identity, hparked, hsame⟩ := hpc
      refine ⟨h.parkCredential howner, ?_⟩
      cases j with
      | use u active => exact trivial
      | add label =>
          refine ⟨identity, hparked, fun identity' hparked' ↦ ?_, fun cred' hparked' ↦ ?_⟩
          · rw [Option.some.inj (hparked.symm.trans hparked')]
          · rw [hsame, Option.some.inj (Slots.park_self.symm.trans hparked')]
  | adoptInfo label =>
      obtain ⟨identity, hparked, hpair⟩ := hpc
      refine ⟨h, ?_⟩
      simp only [Pc.next, hparked]
      exact hpair
  | healRead g =>
      have hpair : ∀ label row, g = .adopt label row → PairOf accountOf w label row.account := by
        rintro label row rfl
        exact hpc
      simp only [Pc.next]
      split
      · rename_i identity cred _ hparked
        split
        · exact ⟨h, pcOwn_healing_next hpair⟩
        · refine ⟨h, fun a ha ↦ h.credential _ a cred ha hparked, fun label row hg ↦ ?_⟩
          subst hg
          exact ⟨hpc, hpc.2 cred hparked⟩
      · exact ⟨h, pcOwn_healing_next hpair⟩
  | healWrite g cred =>
      refine ⟨h.parkCredential hpc.1, pcOwn_healing_next fun label row hg ↦ ?_⟩
      obtain ⟨hpair, hsame⟩ := hpc.2 label row hg
      refine ⟨hpair.1, fun cred' hparked ↦ ?_⟩
      subst hg
      rw [← hsame, Option.some.inj (Slots.park_self.symm.trans hparked)]
  | upsert label row => exact ⟨h.upsert hpc, trivial⟩
  | rmForget label => exact ⟨h.forget, trivial⟩
  | rmRemove label => exact ⟨h.remove, trivial⟩
  | _ =>
      -- nothing is parked
      simp only [Pc.next]
      repeat' split
      all_goals exact ⟨⟨h.identity, h.credential⟩, trivial⟩

end

end RemoteDevbox.Account
