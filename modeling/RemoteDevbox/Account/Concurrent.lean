import RemoteDevbox.Account.Interrupted

namespace RemoteDevbox.Account

/-!
# Swaps at the same time

Any number of `use` and `add` commands, one step of one of them after the other.
The lock keeps their writes apart; what they read before it does not count as
kept. An invariant for each step of the command that holds the lock tells how far
the tree, the vault and the registry have come.
-/

section

variable (accountOf : String → AccountId) (store : Store)

/-- All that is live belongs to one account. -/
def Coherent (w : World) : Prop :=
  ∃ a, (∀ identity, w.identity.live = some identity → identity.account = a) ∧
    ∀ cred, w.credential.live = some cred → credentialAccount accountOf cred = a

/-- The tree holds the account of the active label. -/
def InStep (w : World) : Prop :=
  ∀ label, w.registry.active = some label →
    ∃ a, owner w label = some a ∧ TreeHolds accountOf w a

/-- A vault in which no swap is under way. -/
structure AtRest (w : World) : Prop where
  pairs : OwnedPairs accountOf w
  complete : Complete w
  coherent : Coherent accountOf w
  inStep : InStep accountOf w

/-- `use` and `add` commands at the same time. -/
def concurrent : System Session Event where
  start s := AtRest accountOf s.world ∧ s.world.locked = false ∧ ∀ p, s.procs p = .idle
  next s e s' := Possible accountOf s e ∧
    ((∃ p u, e = .start p (.use u)) ∨ (∃ p label, e = .start p (.add label)) ∨
      ∃ p i, e = .run p i) ∧ s' = s.after store e

/-- What a command read before the lock still holds when it acts on it, and what
it writes without the lock replaces something of the same account. -/
def StillMeets (w : World) : Pc → Prop
  | .useTree u active healOnly => (w.registry.accounts u.label).isSome ∧
      (w.credential.live.isSome → healOnly = false →
        ∀ label, active = some label → w.registry.active = some label)
  | .reload u => ∃ live, w.credential.live = some live ∧
      ∀ cred, w.credential.parked u.dir = some cred →
        credentialAccount accountOf cred = credentialAccount accountOf live
  | .healWrite (.again u) cred => ∃ old, w.credential.parked u.dir = some old ∧
      credentialAccount accountOf cred = credentialAccount accountOf old
  | _ => True

def ConcurrentMeets (s : Session) : Event → Prop
  | .run p _ => StillMeets accountOf s.world (s.procs p)
  | _ => True

/-- The vault while a label is being adopted. -/
structure Adopting (w : World) (label : String) : Prop where
  plain : plainLabel label = true
  identity : w.identity.Owned Identity.account (Function.update (owner w) label none)
  credential : w.credential.Owned (credentialAccount accountOf)
    (Function.update (owner w) label none)
  complete : Complete w
  inStep : InStep accountOf w

/-- The new pair of a label is there, and the tree holds its account. -/
def Adopted (w : World) (label : String) (a : AccountId) : Prop :=
  (∃ identity, w.identity.parked label = some identity ∧ identity.account = a) ∧
    (∃ cred, w.credential.parked label = some cred ∧ credentialAccount accountOf cred = a) ∧
      TreeHolds accountOf w a

/-- A label of the registry whose identity is in the tree. -/
structure Swapping (w : World) (label : String) (a : AccountId) : Prop where
  pairs : OwnedPairs accountOf w
  complete : Complete w
  owner : owner w label = some a
  identity : ∃ identity, w.identity.live = some identity ∧ identity.account = a

/-- What a captured pair is for. -/
def JobOk (w : World) : Job → Prop
  | .use u active => (w.registry.accounts u.label).isSome ∧ w.registry.active = some active
  | .add label => plainLabel label = true

/-- How far the command has come that holds the lock. -/
def Phase (w : World) : Pc → Prop
  | .useTree .. | .unlock => AtRest accountOf w
  | .extract j => AtRest accountOf w ∧ JobOk w j
  | .save j identity => AtRest accountOf w ∧ JobOk w j ∧ w.identity.live = some identity
  | .verify j identity cred | .commitIdentity j identity cred =>
      AtRest accountOf w ∧ JobOk w j ∧ TreeHolds accountOf w identity.account ∧
        credentialAccount accountOf cred = identity.account
  | .commitCredential (.use u active) cred => AtRest accountOf w ∧ JobOk w (.use u active) ∧
      TreeHolds accountOf w (credentialAccount accountOf cred)
  | .commitCredential (.add label) cred => Adopting accountOf w label ∧
      TreeHolds accountOf w (credentialAccount accountOf cred) ∧
        ∃ identity, w.identity.parked label = some identity ∧
          identity.account = credentialAccount accountOf cred
  | .snapshot u _ | .stash u _ _ _ | .usePrune u | .identityApply u _ =>
      AtRest accountOf w ∧ (w.registry.accounts u.label).isSome
  | .healRead (.swap u _) | .storeLoad u _ => ∃ a, Swapping accountOf w u.label a
  | .healWrite (.swap u _) cred =>
      ∃ a, Swapping accountOf w u.label a ∧ credentialAccount accountOf cred = a
  | .healLiveRead u => ∃ a, Swapping accountOf w u.label a ∧ TreeHolds accountOf w a
  | .healLiveWrite u cred => ∃ a, Swapping accountOf w u.label a ∧ TreeHolds accountOf w a ∧
      credentialAccount accountOf cred = a
  | .activate label => ∃ a, Swapping accountOf w label a ∧ TreeHolds accountOf w a
  | .adoptInfo label => Adopting accountOf w label ∧ ∃ a, Adopted accountOf w label a
  | .healRead (.adopt label row) | .upsert label row =>
      Adopting accountOf w label ∧ Adopted accountOf w label row.account
  | .healWrite (.adopt label row) cred =>
      Adopting accountOf w label ∧ Adopted accountOf w label row.account ∧
        credentialAccount accountOf cred = row.account
  | .rmRemove _ | .rmForget _ => False
  | _ => True

/-- The label whose pair is being replaced by one of another account. -/
def Pc.adopts : Pc → Option String
  | .commitCredential (.add label) _ | .adoptInfo label | .healRead (.adopt label _)
  | .healWrite (.adopt label _) _ | .upsert label _ => some label
  | _ => none

/-- What is known of a command without the lock. -/
def Local : Pc → Prop
  | .addLock label => plainLabel label = true
  | .rmCheck _ | .rmActive _ | .rmLock _ | .gc _ => False
  | _ => True

variable {accountOf store}

/-! ## Worlds that differ within one account -/

/-- The worlds are the same but for credentials that belong to the same accounts. -/
structure Agrees (accountOf : String → AccountId) (w w' : World) : Prop where
  registry : w'.registry = w.registry
  identity : w'.identity = w.identity
  live : w'.credential.live.map (credentialAccount accountOf) =
    w.credential.live.map (credentialAccount accountOf)
  parked : ∀ label, (w'.credential.parked label).map (credentialAccount accountOf) =
    (w.credential.parked label).map (credentialAccount accountOf)

section Agrees

variable {w w' : World} (h : Agrees accountOf w w')
include h

theorem Agrees.owner : owner w' = owner w := by
  funext label
  rw [Account.owner, Account.owner, h.registry]

theorem Agrees.parked_some {label : String} {cred : Credential}
    (hcred : w'.credential.parked label = some cred) :
    ∃ old, w.credential.parked label = some old ∧
      credentialAccount accountOf old = credentialAccount accountOf cred := by
  have hparked := h.parked label
  rw [hcred, Option.map_some, eq_comm] at hparked
  exact Option.map_eq_some_iff.mp hparked

theorem Agrees.live_some {cred : Credential} (hcred : w'.credential.live = some cred) :
    ∃ old, w.credential.live = some old ∧
      credentialAccount accountOf old = credentialAccount accountOf cred := by
  have hlive := h.live
  rw [hcred, Option.map_some, eq_comm] at hlive
  exact Option.map_eq_some_iff.mp hlive

theorem Agrees.owned {rows : String → Option AccountId}
    (howned : w.credential.Owned (credentialAccount accountOf) rows) :
    w'.credential.Owned (credentialAccount accountOf) rows := by
  intro label a cred ha hcred
  obtain ⟨old, hold, hsame⟩ := h.parked_some hcred
  rw [← hsame]
  exact howned label a old ha hold

theorem Agrees.pairs (hpairs : OwnedPairs accountOf w) : OwnedPairs accountOf w' := by
  refine ⟨?_, ?_⟩
  · rw [h.owner, h.identity]
    exact hpairs.identity
  · rw [h.owner]
    exact h.owned hpairs.credential

theorem Agrees.complete (hcomplete : Complete w) : Complete w' := by
  intro label hrow
  rw [h.registry] at hrow
  obtain ⟨hplain, hidentity, hcredential⟩ := hcomplete label hrow
  refine ⟨hplain, by rwa [h.identity], ?_⟩
  rwa [← Option.isSome_map, h.parked, Option.isSome_map]

theorem Agrees.treeHolds {a : AccountId} (htree : TreeHolds accountOf w a) :
    TreeHolds accountOf w' a := by
  obtain ⟨hidentity, cred, hcred, hsame⟩ := htree
  refine ⟨by rwa [h.identity], ?_⟩
  have hlive := h.live
  rw [hcred, Option.map_some] at hlive
  obtain ⟨cred', hcred', hsame'⟩ := Option.map_eq_some_iff.mp hlive
  exact ⟨cred', hcred', hsame'.trans hsame⟩

theorem Agrees.inStep (hstep : InStep accountOf w) : InStep accountOf w' := by
  intro label hactive
  rw [h.registry] at hactive
  obtain ⟨a, howner, htree⟩ := hstep label hactive
  exact ⟨a, by rwa [h.owner], h.treeHolds htree⟩

theorem Agrees.atRest (hrest : AtRest accountOf w) : AtRest accountOf w' := by
  refine ⟨h.pairs hrest.pairs, h.complete hrest.complete, ?_, h.inStep hrest.inStep⟩
  obtain ⟨a, hidentity, hcred⟩ := hrest.coherent
  refine ⟨a, by rwa [h.identity], fun cred hlive ↦ ?_⟩
  obtain ⟨old, hold, hsame⟩ := h.live_some hlive
  exact hsame.symm.trans (hcred old hold)

theorem Agrees.adopting {label : String} (hadopting : Adopting accountOf w label) :
    Adopting accountOf w' label := by
  refine ⟨hadopting.plain, ?_, ?_, h.complete hadopting.complete, h.inStep hadopting.inStep⟩
  · rw [h.owner, h.identity]
    exact hadopting.identity
  · rw [h.owner]
    exact h.owned hadopting.credential

theorem Agrees.adopted {label : String} {a : AccountId} (hadopted : Adopted accountOf w label a) :
    Adopted accountOf w' label a := by
  obtain ⟨hidentity, ⟨cred, hcred, hsame⟩, htree⟩ := hadopted
  refine ⟨by rwa [h.identity], ?_, h.treeHolds htree⟩
  have hparked := h.parked label
  rw [hcred, Option.map_some] at hparked
  obtain ⟨cred', hcred', hsame'⟩ := Option.map_eq_some_iff.mp hparked
  exact ⟨cred', hcred', hsame'.trans hsame⟩

theorem Agrees.swapping {label : String} {a : AccountId} (hswapping : Swapping accountOf w label a) :
    Swapping accountOf w' label a := by
  refine ⟨h.pairs hswapping.pairs, h.complete hswapping.complete, ?_, ?_⟩
  · rw [h.owner]
    exact hswapping.owner
  · rw [h.identity]
    exact hswapping.identity

theorem Agrees.jobOk {j : Job} (hjob : JobOk w j) : JobOk w' j := by
  cases j with
  | add label => exact hjob
  | use u active =>
      rw [JobOk, h.registry]
      exact hjob

theorem Agrees.phase {pc : Pc} (hphase : Phase accountOf w pc) : Phase accountOf w' pc := by
  cases pc with
  | useTree | unlock => exact h.atRest hphase
  | extract j => exact hphase.imp h.atRest h.jobOk
  | save j identity =>
      obtain ⟨hrest, hjob, hlive⟩ := hphase
      refine ⟨h.atRest hrest, h.jobOk hjob, ?_⟩
      rwa [h.identity]
  | verify j identity cred | commitIdentity j identity cred =>
      obtain ⟨hrest, hjob, htree, hsame⟩ := hphase
      exact ⟨h.atRest hrest, h.jobOk hjob, h.treeHolds htree, hsame⟩
  | commitCredential j cred =>
      cases j with
      | use u active =>
          obtain ⟨hrest, hjob, htree⟩ := hphase
          exact ⟨h.atRest hrest, h.jobOk hjob, h.treeHolds htree⟩
      | add label =>
          obtain ⟨hadopting, htree, hidentity⟩ := hphase
          refine ⟨h.adopting hadopting, h.treeHolds htree, ?_⟩
          rwa [h.identity]
  | snapshot | stash | usePrune | identityApply =>
      obtain ⟨hrest, hrow⟩ := hphase
      refine ⟨h.atRest hrest, ?_⟩
      rwa [h.registry]
  | healRead g =>
      cases g with
      | again u => exact trivial
      | swap u captured => exact hphase.imp fun _ ↦ h.swapping
      | adopt label row => exact hphase.imp h.adopting h.adopted
  | healWrite g cred =>
      cases g with
      | again u => exact trivial
      | swap u captured => exact hphase.imp fun _ ↦ And.imp_left h.swapping
      | adopt label row => exact hphase.imp h.adopting (And.imp_left h.adopted)
  | storeLoad u captured => exact hphase.imp fun _ ↦ h.swapping
  | healLiveRead u => exact hphase.imp fun _ ↦ And.imp h.swapping h.treeHolds
  | healLiveWrite u cred =>
      exact hphase.imp fun _ ↦ And.imp h.swapping (And.imp_left h.treeHolds)
  | activate label => exact hphase.imp fun _ ↦ And.imp h.swapping h.treeHolds
  | adoptInfo label => exact hphase.imp h.adopting (Exists.imp fun _ ↦ h.adopted)
  | upsert label row => exact hphase.imp h.adopting h.adopted
  | rmRemove | rmForget => exact hphase
  | _ => exact trivial

end Agrees

/-! ## What a command writes while it holds the lock -/

theorem Agrees.of_eq {w w' : World} (hregistry : w'.registry = w.registry)
    (hidentity : w'.identity = w.identity) (hcredential : w'.credential = w.credential) :
    Agrees accountOf w w' where
  registry := hregistry
  identity := hidentity
  live := by rw [hcredential]
  parked := fun _ ↦ by rw [hcredential]

theorem AtRest.of_eq {w w' : World} (h : AtRest accountOf w)
    (hregistry : w'.registry = w.registry) (hidentity : w'.identity = w.identity)
    (hcredential : w'.credential = w.credential) : AtRest accountOf w' :=
  (Agrees.of_eq hregistry hidentity hcredential).atRest h

/-- The tree holds one account. -/
theorem TreeHolds.unique {w : World} {a b : AccountId} (ha : TreeHolds accountOf w a)
    (hb : TreeHolds accountOf w b) : a = b := by
  obtain ⟨⟨identity, hlive, hsame⟩, _⟩ := ha
  obtain ⟨⟨identity', hlive', hsame'⟩, _⟩ := hb
  obtain rfl := Option.some.inj (hlive.symm.trans hlive')
  exact hsame.symm.trans hsame'

theorem TreeHolds.coherent {w : World} {a : AccountId} (h : TreeHolds accountOf w a) :
    Coherent accountOf w := by
  obtain ⟨⟨identity, hlive, hsame⟩, cred, hcred, hsame'⟩ := h
  refine ⟨a, fun identity' hlive' ↦ ?_, fun cred' hcred' ↦ ?_⟩
  · rw [← Option.some.inj (hlive.symm.trans hlive'), hsame]
  · rw [← Option.some.inj (hcred.symm.trans hcred'), hsame']

/-- What is captured for the active label belongs to it. -/
theorem AtRest.owner_active {w : World} {label : String} {a : AccountId}
    (h : AtRest accountOf w) (hactive : w.registry.active = some label)
    (htree : TreeHolds accountOf w a) : ∀ b, owner w label = some b → a = b := by
  intro b hb
  obtain ⟨c, hc, htree'⟩ := h.inStep label hactive
  rw [htree.unique htree', Option.some.inj (hc.symm.trans hb)]

theorem AtRest.parkIdentity {w : World} {label : String} {identity : Identity}
    (h : AtRest accountOf w) (hfits : ∀ b, owner w label = some b → identity.account = b) :
    AtRest accountOf (w.apply (.parkIdentity label identity)) :=
  ⟨h.pairs.parkIdentity hfits, h.complete.of_grows .parkIdentity, h.coherent, h.inStep⟩

theorem AtRest.parkCredential {w : World} {label : String} {cred : Credential}
    (h : AtRest accountOf w)
    (hfits : ∀ b, owner w label = some b → credentialAccount accountOf cred = b) :
    AtRest accountOf (w.apply (.parkCredential label cred)) :=
  ⟨h.pairs.parkCredential hfits, h.complete.of_grows .parkCredential, h.coherent, h.inStep⟩

/-- A label that is being adopted has no owner to please. -/
theorem no_owner {rows : String → Option AccountId} {label : String} {b : AccountId}
    (h : Function.update rows label none label = some b) (P : Prop) : P := by
  rw [Function.update_self] at h
  cases h

theorem AtRest.adopting {w : World} {label : String} {identity : Identity}
    (h : AtRest accountOf w) (hplain : plainLabel label = true) :
    Adopting accountOf (w.apply (.parkIdentity label identity)) label :=
  ⟨hplain, h.pairs.identity.disown.park fun _ hb ↦ no_owner hb _, h.pairs.credential.disown,
    h.complete.of_grows .parkIdentity, h.inStep⟩

theorem Adopting.parkCredential {w : World} {label : String} {cred : Credential}
    (h : Adopting accountOf w label) :
    Adopting accountOf (w.apply (.parkCredential label cred)) label :=
  ⟨h.plain, h.identity, h.credential.park fun _ hb ↦ no_owner hb _,
    h.complete.of_grows .parkCredential, h.inStep⟩

theorem Adopted.parkCredential {w : World} {label : String} {a : AccountId} {cred : Credential}
    (h : Adopted accountOf w label a) (hsame : credentialAccount accountOf cred = a) :
    Adopted accountOf (w.apply (.parkCredential label cred)) label a :=
  ⟨h.1, ⟨cred, Slots.park_self, hsame⟩, h.2.2⟩

/-- The row is written last. -/
theorem Adopting.upsert {w : World} {label : String} {row : Info} (h : Adopting accountOf w label)
    (hadopted : Adopted accountOf w label row.account) :
    AtRest accountOf (w.apply (.upsert label row)) := by
  obtain ⟨⟨identity, hidentity, hidentityOf⟩, ⟨cred, hcred, hcredOf⟩, htree⟩ := hadopted
  have hrow : Function.update (Function.update (owner w) label none) label (some row.account) =
      Function.update (owner w) label (some row.account) := Function.update_idem ..
  refine ⟨⟨?_, ?_⟩, fun l hrow ↦ ?_, htree.coherent, fun l hactive ↦ ?_⟩
  · rw [owner_upsert, ← hrow]
    refine h.identity.adopt fun identity' hparked ↦ ?_
    rw [← Option.some.inj (hidentity.symm.trans hparked), hidentityOf]
  · rw [owner_upsert, ← hrow]
    refine h.credential.adopt fun cred' hparked ↦ ?_
    rw [← Option.some.inj (hcred.symm.trans hparked), hcredOf]
  · by_cases heq : l = label
    · subst heq
      exact ⟨h.plain, Option.isSome_of_eq_some hidentity, Option.isSome_of_eq_some hcred⟩
    · refine h.complete l ?_
      rwa [← Function.update_of_ne heq (some row) w.registry.accounts]
  · obtain rfl : label = l := Option.some.inj hactive
    refine ⟨row.account, ?_, htree⟩
    rw [owner_upsert, Function.update_self]

theorem Swapping.row {w : World} {label : String} {a : AccountId} (h : Swapping accountOf w label a) :
    (w.registry.accounts label).isSome :=
  Option.isSome_of_eq_some (Option.map_eq_some_iff.mp h.owner).choose_spec.1

/-- The last write of a swap. -/
theorem Swapping.activate {w : World} {label : String} {a : AccountId}
    (h : Swapping accountOf w label a) (htree : TreeHolds accountOf w a) :
    AtRest accountOf (w.apply (.activate label)) := by
  refine ⟨⟨h.pairs.identity, h.pairs.credential⟩, h.complete, htree.coherent, fun l hactive ↦ ?_⟩
  obtain rfl : label = l := Option.some.inj hactive
  exact ⟨a, h.owner, htree⟩

theorem Swapping.parkCredential {w : World} {u : Use} {a : AccountId} {cred : Credential}
    (h : Swapping accountOf w u.label a) (hsame : credentialAccount accountOf cred = a) :
    Swapping accountOf (w.apply (.parkCredential u.dir cred)) u.label a := by
  obtain ⟨hdir, _⟩ := h.complete.pair h.owner
  refine ⟨h.pairs.parkCredential fun b hb ↦ ?_, h.complete.of_grows .parkCredential, h.owner,
    h.identity⟩
  rw [hdir] at hb
  rw [hsame, Option.some.inj (h.owner.symm.trans hb)]

theorem Swapping.loadCredential {w : World} {label : String} {a : AccountId} {cred : Credential}
    (h : Swapping accountOf w label a) (hsame : credentialAccount accountOf cred = a) :
    Swapping accountOf (w.apply (.loadCredential cred)) label a ∧
      TreeHolds accountOf (w.apply (.loadCredential cred)) a :=
  ⟨⟨⟨h.pairs.identity, h.pairs.credential⟩, h.complete, h.owner, h.identity⟩, h.identity, cred, rfl,
    hsame⟩

/-- One step of the command that holds the lock. -/
theorem phase_next (store : Store) (i : Inputs) {w : World} {pc : Pc}
    (hholds : pc.holdsLock = true) (hlocked : pc ≠ .unlock) (h : Phase accountOf w pc)
    (hmeets : StillMeets accountOf w pc) :
    (pc.next store i w).2.holdsLock = true ∧
      Phase accountOf (w.apply (pc.next store i w).1) (pc.next store i w).2 := by
  cases pc with
  | useTree u active healOnly =>
      obtain ⟨hrow, hactive⟩ := hmeets
      simp only [Pc.next]
      split
      · rename_i hcapture
        obtain ⟨hlive, hheal⟩ := Bool.and_eq_true_iff.mp hcapture
        cases active with
        | none => exact ⟨rfl, h⟩
        | some active =>
            exact ⟨rfl, h, hrow, hactive hlive (by simpa using hheal) active rfl⟩
      · exact ⟨rfl, h, hrow⟩
  | extract j =>
      obtain ⟨hrest, hjob⟩ := h
      simp only [Pc.next]
      split
      · exact ⟨rfl, hrest⟩
      · rename_i identity hlive
        exact ⟨rfl, hrest, hjob, hlive⟩
  | save j identity =>
      obtain ⟨hrest, hjob, hlive⟩ := h
      simp only [Pc.next]
      split
      · exact ⟨rfl, hrest⟩
      · rename_i cred hcred
        obtain ⟨a, hidentityOf, hcredOf⟩ := hrest.coherent
        have hsame : credentialAccount accountOf cred = identity.account :=
          (hcredOf cred hcred).trans (hidentityOf identity hlive).symm
        exact ⟨rfl, hrest, hjob, ⟨⟨identity, hlive, rfl⟩, cred, hcred, hsame⟩, hsame⟩
  | verify j identity cred =>
      obtain ⟨hrest, hjob, htree, hsame⟩ := h
      simp only [Pc.next]
      split
      · cases j with
        | use u active => exact ⟨rfl, hrest, hjob.1⟩
        | add label => exact ⟨rfl, hrest⟩
      · exact ⟨rfl, hrest, hjob, htree, hsame⟩
  | commitIdentity j identity cred =>
      obtain ⟨hrest, hjob, htree, hsame⟩ := h
      cases j with
      | use u active =>
          have hrest' := hrest.parkIdentity (hrest.owner_active hjob.2 htree)
          refine ⟨rfl, hrest', hjob, ?_⟩
          rw [hsame]
          exact htree
      | add label =>
          refine ⟨rfl, hrest.adopting hjob, ?_, identity, Slots.park_self, hsame.symm⟩
          rw [hsame]
          exact htree
  | commitCredential j cred =>
      cases j with
      | use u active =>
          obtain ⟨hrest, hjob, htree⟩ := h
          exact ⟨rfl, hrest.parkCredential (hrest.owner_active hjob.2 htree), hjob.1⟩
      | add label =>
          obtain ⟨hadopting, htree, hidentity⟩ := h
          exact ⟨rfl, hadopting.parkCredential, _, hidentity, ⟨cred, Slots.park_self, rfl⟩, htree⟩
  | snapshot u active => exact ⟨rfl, h.1.of_eq rfl rfl rfl, h.2⟩
  | stash u active identity cred => exact ⟨rfl, h.1.of_eq rfl rfl rfl, h.2⟩
  | usePrune u =>
      simp only [Pc.next]
      split
      · exact ⟨rfl, h.1⟩
      · exact ⟨rfl, h.1.of_eq rfl rfl rfl, h.2⟩
  | identityApply u captured =>
      obtain ⟨hrest, hrow⟩ := h
      obtain ⟨row, hrow⟩ := Option.isSome_iff_exists.mp hrow
      have howner : owner w u.label = some row.account := by
        rw [owner, hrow, Option.map_some]
      obtain ⟨hdir, _, ⟨identity, hidentity⟩, _⟩ := hrest.complete.pair howner
      refine ⟨rfl, row.account, ⟨hrest.pairs.identity, hrest.pairs.credential⟩, hrest.complete,
        howner, identity, hidentity, ?_⟩
      rw [hdir] at hidentity
      exact hrest.pairs.identity _ _ _ howner hidentity
  | healRead g =>
      cases g with
      | again u => cases hholds
      | swap u captured =>
          obtain ⟨a, hswapping⟩ := h
          simp only [Pc.next]
          split
          · rename_i identity cred _ hparked
            split
            · exact ⟨rfl, a, hswapping⟩
            · obtain ⟨hdir, _⟩ := hswapping.complete.pair hswapping.owner
              refine ⟨rfl, a, hswapping, ?_⟩
              change w.credential.parked u.dir = some cred at hparked
              rw [hdir] at hparked
              exact hswapping.pairs.credential _ a cred hswapping.owner hparked
          · exact ⟨rfl, a, hswapping⟩
      | adopt label row =>
          obtain ⟨hadopting, hadopted⟩ := h
          simp only [Pc.next]
          split
          · rename_i identity cred _ hparked
            split
            · exact ⟨rfl, hadopting, hadopted⟩
            · obtain ⟨cred', hcred', hsame⟩ := hadopted.2.1
              obtain rfl := Option.some.inj (hcred'.symm.trans hparked)
              exact ⟨rfl, hadopting, hadopted, hsame⟩
          · exact ⟨rfl, hadopting, hadopted⟩
  | healWrite g cred =>
      cases g with
      | again u => cases hholds
      | swap u captured =>
          obtain ⟨a, hswapping, hsame⟩ := h
          exact ⟨rfl, a, hswapping.parkCredential hsame⟩
      | adopt label row =>
          obtain ⟨hadopting, hadopted, hsame⟩ := h
          exact ⟨rfl, hadopting.parkCredential, hadopted.parkCredential hsame⟩
  | storeLoad u captured =>
      obtain ⟨a, hswapping⟩ := h
      obtain ⟨hdir, _, _, cred, hparked⟩ := hswapping.complete.pair hswapping.owner
      have hsame : credentialAccount accountOf cred = a := by
        refine hswapping.pairs.credential _ a cred hswapping.owner ?_
        rwa [← hdir]
      simp only [Pc.next, hparked]
      cases store with
      | file => exact ⟨rfl, a, hswapping.loadCredential hsame⟩
      | keychain => exact ⟨rfl, a, hswapping.loadCredential hsame⟩
  | healLiveRead u =>
      obtain ⟨a, hswapping, htree⟩ := h
      simp only [Pc.next]
      split
      · rename_i identity cred _ hlive
        split
        · exact ⟨rfl, a, hswapping, htree⟩
        · obtain ⟨cred', hcred', hsame⟩ := htree.2
          obtain rfl := Option.some.inj (hcred'.symm.trans hlive)
          exact ⟨rfl, a, hswapping, htree, hsame⟩
      · exact ⟨rfl, a, hswapping, htree⟩
  | healLiveWrite u cred =>
      obtain ⟨a, hswapping, _, hsame⟩ := h
      exact ⟨rfl, a, hswapping.loadCredential hsame⟩
  | activate label =>
      obtain ⟨a, hswapping, htree⟩ := h
      simp only [Pc.next, hswapping.row, if_true]
      exact ⟨rfl, hswapping.activate htree⟩
  | adoptInfo label =>
      obtain ⟨hadopting, a, hadopted⟩ := h
      obtain ⟨identity, hidentity, hsame⟩ := hadopted.1
      refine ⟨rfl, hadopting, ?_⟩
      simp only [hidentity, Option.map_some, Option.getD_some]
      change Adopted accountOf w label identity.account
      rwa [hsame]
  | upsert label row => exact ⟨rfl, h.1.upsert h.2⟩
  | unlock => exact (hlocked rfl).elim
  | rmRemove | rmForget => exact h.elim
  | _ => cases hholds

/-- A command that holds the lock and does not give it back leaves it in place. -/
theorem locked_next (store : Store) (i : Inputs) {w : World} {pc : Pc}
    (hholds : pc.holdsLock = true) (hlocked : pc ≠ .unlock) :
    (w.apply (pc.next store i w).1).locked = w.locked := by
  cases pc with
  | useTree u active healOnly =>
      simp only [Pc.next]
      split
      · cases active <;> rfl
      · rfl
  | extract j | save j | usePrune j | activate j | storeLoad j =>
      simp only [Pc.next]
      split <;> rfl
  | healLiveRead u =>
      simp only [Pc.next]
      split
      · split <;> rfl
      · rfl
  | verify j identity cred =>
      simp only [Pc.next]
      split
      · cases j <;> rfl
      · rfl
  | healRead g =>
      simp only [Pc.next]
      split
      · split <;> rfl
      · rfl
  | unlock => exact (hlocked rfl).elim
  | idle | useCheck | useActive | useStore | useCompare | reload | useRunning | useLock | addCheck
  | addLock | rmCheck | rmActive | rmLock | gc => cases hholds
  | _ => rfl

/-! ## What a command does without the lock -/

/-- One step of a command without the lock: it takes the lock of a vault at rest, or
goes on without it and changes nothing but credentials of the same account. -/
inductive Outside (accountOf : String → AccountId) (w : World) : World × Pc → Prop
  | locks {pc : Pc} (hfree : w.locked = false) (hholds : pc.holdsLock = true)
      (hphase : AtRest accountOf (w.apply .lock) → Phase accountOf (w.apply .lock) pc) :
      Outside accountOf w (w.apply .lock, pc)
  | goesOn {w' : World} {pc : Pc} (hagrees : Agrees accountOf w w')
      (hlocked : w'.locked = w.locked) (hholds : pc.holdsLock = false) (hlocal : Local pc) :
      Outside accountOf w (w', pc)

theorem Outside.reads {w : World} {pc : Pc} (hholds : pc.holdsLock = false) (hlocal : Local pc) :
    Outside accountOf w (w, pc) :=
  .goesOn (.of_eq rfl rfl rfl) rfl hholds hlocal

theorem outside_next (store : Store) (i : Inputs) {w : World} {pc : Pc}
    (hholds : pc.holdsLock = false) (hlocal : Local pc) (hmeets : StillMeets accountOf w pc) :
    Outside accountOf w (turn store i (w, pc)) := by
  cases pc with
  | idle => exact .reads rfl trivial
  | useCheck u =>
      simp only [turn, Pc.next]
      split <;> exact .reads rfl trivial
  | useActive u =>
      simp only [turn, Pc.next]
      split <;> exact .reads rfl trivial
  | useStore u =>
      simp only [turn, Pc.next]
      split <;> exact .reads rfl trivial
  | useCompare u =>
      simp only [turn, Pc.next]
      split <;> exact .reads rfl trivial
  | useRunning u active healOnly =>
      simp only [turn, Pc.next]
      split <;> exact .reads rfl trivial
  | reload u =>
      obtain ⟨live, hlive, hsame⟩ := hmeets
      simp only [turn, Pc.next]
      split
      · rename_i cred hparked
        refine .goesOn ⟨rfl, rfl, ?_, fun _ ↦ rfl⟩ rfl rfl trivial
        change some (credentialAccount accountOf cred) = _
        rw [hlive, Option.map_some, hsame cred hparked]
      · exact .reads rfl trivial
  | useLock u active healOnly =>
      simp only [turn, Pc.next]
      split
      · exact .reads rfl trivial
      · rename_i hfree
        exact .locks (by simpa using hfree) rfl fun hrest ↦ hrest
  | healRead g =>
      cases g with
      | again u =>
          simp only [turn, Pc.next]
          split
          · split <;> exact .reads rfl trivial
          · exact .reads rfl trivial
      | swap | adopt => cases hholds
  | healWrite g cred =>
      cases g with
      | again u =>
          obtain ⟨old, hold, hsame⟩ := hmeets
          refine .goesOn ⟨rfl, rfl, rfl, fun label ↦ ?_⟩ rfl rfl trivial
          change Option.map _ ((w.credential.park u.dir cred).parked label) = _
          by_cases heq : label = u.dir
          · subst heq
            rw [Slots.park_self, hold, Option.map_some, Option.map_some, hsame]
          · rw [Slots.park_ne heq]
      | swap | adopt => cases hholds
  | addCheck label =>
      simp only [turn, Pc.next]
      split
      · rename_i hplain
        exact .reads rfl (Bool.and_eq_true_iff.mp hplain).1
      · exact .reads rfl trivial
  | addLock label =>
      simp only [turn, Pc.next]
      split
      · exact .reads rfl trivial
      · rename_i hfree
        exact .locks (by simpa using hfree) rfl fun hrest ↦ ⟨hrest, hlocal⟩
  | rmCheck | rmActive | rmLock | gc => exact hlocal.elim
  | _ => cases hholds

/-! ## Any number of commands -/

/-- What holds in every state of these runs. -/
structure Interleaved (accountOf : String → AccountId) (s : Session) : Prop where
  outside : ∀ p, (s.procs p).holdsLock = false → Local (s.procs p)
  alone : ∀ p q, (s.procs p).holdsLock = true → (s.procs q).holdsLock = true → p = q
  phase : ∀ p, (s.procs p).holdsLock = true →
    s.world.locked = true ∧ Phase accountOf s.world (s.procs p)
  rest : (∀ p, (s.procs p).holdsLock = false) → s.world.locked = false ∧ AtRest accountOf s.world

section Session

variable {s : Session} {w : World} {p : ℕ} {pc : Pc}

/-- The command that holds the lock goes on, or gives it back. -/
theorem Interleaved.update_holder (h : Interleaved accountOf s)
    (hholder : (s.procs p).holdsLock = true) (hlocal : pc.holdsLock = false → Local pc)
    (hphase : pc.holdsLock = true → w.locked = true ∧ Phase accountOf w pc)
    (hrest : pc.holdsLock = false → w.locked = false ∧ AtRest accountOf w) :
    Interleaved accountOf ⟨w, Function.update s.procs p pc⟩ := by
  have hothers : ∀ q, q ≠ p → (s.procs q).holdsLock = false := by
    intro q hq
    rw [Bool.eq_false_iff]
    exact fun hholds ↦ hq (h.alone q p hholds hholder)
  have hother : ∀ q, (Function.update s.procs p pc q).holdsLock = true → q = p := by
    intro q hholds
    by_contra hq
    rw [Function.update_of_ne hq, hothers q hq] at hholds
    cases hholds
  refine ⟨fun q hq ↦ ?_, fun q r hq hr ↦ (hother q hq).trans (hother r hr).symm,
    fun q hq ↦ ?_, fun hnone ↦ hrest (by simpa using hnone p)⟩
  · by_cases heq : q = p
    · subst heq
      simp only [Function.update_self] at hq ⊢
      exact hlocal hq
    · simp only [Function.update_of_ne heq]
      exact h.outside q (hothers q heq)
  · obtain rfl := hother q hq
    simp only [Function.update_self] at hq ⊢
    exact hphase hq

/-- A command without the lock goes on beside the others. -/
theorem Interleaved.update_outside (h : Interleaved accountOf s)
    (hagrees : Agrees accountOf s.world w) (hlocked : w.locked = s.world.locked)
    (hholder : (s.procs p).holdsLock = false) (hholds : pc.holdsLock = false)
    (hlocal : Local pc) : Interleaved accountOf ⟨w, Function.update s.procs p pc⟩ := by
  have hother : ∀ q, (Function.update s.procs p pc q).holdsLock = true →
      (s.procs q).holdsLock = true ∧ Function.update s.procs p pc q = s.procs q := by
    intro q hq
    by_cases heq : q = p
    · subst heq
      rw [Function.update_self, hholds] at hq
      cases hq
    · rw [Function.update_of_ne heq] at hq ⊢
      exact ⟨hq, rfl⟩
  refine ⟨fun q hq ↦ ?_, fun q r hq hr ↦ h.alone q r (hother q hq).1 (hother r hr).1,
    fun q hq ↦ ?_, fun hnone ↦ ?_⟩
  · by_cases heq : q = p
    · subst heq
      simp only [Function.update_self]
      exact hlocal
    · simp only [Function.update_of_ne heq] at hq ⊢
      exact h.outside q hq
  · obtain ⟨hholding, hsame⟩ := hother q hq
    obtain ⟨hlock, hphase⟩ := h.phase q hholding
    change w.locked = true ∧ Phase accountOf w (Function.update s.procs p pc q)
    rw [hsame, hlocked]
    exact ⟨hlock, hagrees.phase hphase⟩
  · have hnobody : ∀ q, (s.procs q).holdsLock = false := by
      intro q
      by_cases heq : q = p
      · rwa [heq]
      · simpa [Function.update_of_ne heq] using hnone q
    obtain ⟨hfree, hrest⟩ := h.rest hnobody
    exact ⟨hlocked.trans hfree, hagrees.atRest hrest⟩

end Session

theorem interleaved_run {s : Session} (h : Interleaved accountOf s) (p : ℕ) (i : Inputs)
    (hmeets : StillMeets accountOf s.world (s.procs p)) :
    Interleaved accountOf (s.after store (.run p i)) := by
  cases hholder : (s.procs p).holdsLock with
  | false =>
      have hstep := outside_next store i hholder (h.outside p hholder) hmeets
      change Interleaved accountOf ⟨(turn store i (s.world, s.procs p)).1,
        Function.update s.procs p (turn store i (s.world, s.procs p)).2⟩
      generalize turn store i (s.world, s.procs p) = st at hstep
      cases hstep with
      | @locks pc hfree hholds hphase =>
          -- nobody held it before
          have hothers : ∀ q, (s.procs q).holdsLock = false := by
            intro q
            rw [Bool.eq_false_iff]
            intro hq
            have hlocked := (h.phase q hq).1
            rw [hfree] at hlocked
            cases hlocked
          have hrest : AtRest accountOf (s.world.apply .lock) :=
            (h.rest hothers).2.of_eq rfl rfl rfl
          have hother : ∀ q, (Function.update s.procs p pc q).holdsLock = true → q = p := by
            intro q hq
            by_contra hne
            rw [Function.update_of_ne hne, hothers q] at hq
            cases hq
          refine ⟨fun q hq ↦ ?_, fun q r hq hr ↦ (hother q hq).trans (hother r hr).symm,
            fun q hq ↦ ?_, fun hnone ↦ ?_⟩
          · by_cases heq : q = p
            · subst heq
              simp only [Function.update_self, hholds] at hq
              cases hq
            · simp only [Function.update_of_ne heq]
              exact h.outside q (hothers q)
          · obtain rfl := hother q hq
            simp only [Function.update_self]
            exact ⟨rfl, hphase hrest⟩
          · have hfree' := hnone p
            simp only [Function.update_self, hholds] at hfree'
            cases hfree'
      | goesOn hagrees hlocked hholds hlocal =>
          exact h.update_outside hagrees hlocked hholder hholds hlocal
  | true =>
      obtain ⟨hlocked, hphase⟩ := h.phase p hholder
      by_cases hunlock : s.procs p = .unlock
      · rw [hunlock] at hphase
        have hrest : AtRest accountOf (s.world.apply .unlock) := hphase.of_eq rfl rfl rfl
        rw [Session.after, hunlock]
        exact h.update_holder hholder (fun _ ↦ trivial) (fun hholds ↦ by cases hholds)
          fun _ ↦ ⟨rfl, hrest⟩
      · obtain ⟨hholds, hphase'⟩ := phase_next store i hholder hunlock hphase hmeets
        have hlocked' := (locked_next store i (w := s.world) hholder hunlock).trans hlocked
        refine h.update_holder hholder (fun hfree ↦ ?_) (fun _ ↦ ⟨hlocked', hphase'⟩)
          fun hfree ↦ ?_
        · rw [hholds] at hfree
          cases hfree
        · rw [hholds] at hfree
          cases hfree

theorem interleaved_after {s s' : Session} {e : Event} (h : Interleaved accountOf s)
    (hmeets : ConcurrentMeets accountOf s e) (hnext : (concurrent accountOf store).next s e s') :
    Interleaved accountOf s' := by
  obtain ⟨hpossible, hevent, rfl⟩ := hnext
  obtain ⟨p, u, rfl⟩ | ⟨p, label, rfl⟩ | ⟨p, i, rfl⟩ := hevent
  · refine h.update_outside (.of_eq rfl rfl rfl) rfl ?_ rfl trivial
    rw [hpossible]
    rfl
  · refine h.update_outside (.of_eq rfl rfl rfl) rfl ?_ rfl trivial
    rw [hpossible]
    rfl
  · exact interleaved_run h p i hmeets

theorem interleaved_of_reaches {s : Session}
    (h : (concurrent accountOf store).Reaches (ConcurrentMeets accountOf) s) :
    Interleaved accountOf s := by
  refine h.invariant ?_ fun _ _ _ hs hmeets hnext ↦ interleaved_after hs hmeets hnext
  rintro s ⟨hrest, hfree, hidle⟩
  have hnone : ∀ p, (s.procs p).holdsLock = false := fun p ↦ by rw [hidle p]; rfl
  refine ⟨fun p _ ↦ ?_, fun p _ hp ↦ ?_, fun p hp ↦ ?_, fun _ ↦ ⟨hfree, hrest⟩⟩
  · rw [hidle p]
    exact trivial
  · rw [hnone p] at hp
    cases hp
  · rw [hnone p] at hp
    cases hp

/-! ## What is parked, at every moment -/

theorem Adopting.pairOf {w : World} {label l : String} {a : AccountId}
    (h : Adopting accountOf w label) (hne : l ≠ label) (howner : owner w l = some a) :
    PairOf accountOf w l a := by
  have hrow : Function.update (owner w) label none l = some a := by
    rwa [Function.update_of_ne hne]
  exact ⟨fun identity ↦ h.identity l a identity hrow, fun cred ↦ h.credential l a cred hrow⟩

theorem phase_pairOf {w : World} {pc : Pc} (hholds : pc.holdsLock = true)
    (hphase : Phase accountOf w pc) {label : String} (hne : pc.adopts ≠ some label) {a : AccountId}
    (howner : owner w label = some a) : PairOf accountOf w label a := by
  have hother : ∀ {l : String}, some l ≠ some label → label ≠ l :=
    fun hne heq ↦ hne (congrArg some heq.symm)
  cases pc with
  | useTree | unlock => exact hphase.pairs.pairOf howner
  | extract | save | verify | commitIdentity | snapshot | stash | usePrune | identityApply =>
      exact hphase.1.pairs.pairOf howner
  | commitCredential j cred =>
      cases j with
      | use u active => exact hphase.1.pairs.pairOf howner
      | add l => exact hphase.1.pairOf (hother hne) howner
  | healRead g =>
      cases g with
      | again u => cases hholds
      | swap u captured => exact hphase.choose_spec.pairs.pairOf howner
      | adopt l row => exact hphase.1.pairOf (hother hne) howner
  | healWrite g cred =>
      cases g with
      | again u => cases hholds
      | swap u captured => exact hphase.choose_spec.1.pairs.pairOf howner
      | adopt l row => exact hphase.1.pairOf (hother hne) howner
  | storeLoad u captured => exact hphase.choose_spec.pairs.pairOf howner
  | healLiveRead | healLiveWrite | activate => exact hphase.choose_spec.1.pairs.pairOf howner
  | adoptInfo l | upsert l => exact hphase.1.pairOf (hother hne) howner
  | rmRemove | rmForget => exact hphase.elim
  | idle | useCheck | useActive | useStore | useCompare | reload | useRunning | useLock | addCheck
  | addLock | rmCheck | rmActive | rmLock | gc => cases hholds

/-- In every run of concurrent swaps and adoptions in which what a command read
before the lock still holds when it acts on it: one command at a time has the lock;
while none has it, the vault is at rest; and at every moment each pair is its label's
own, but for the label that is being adopted. -/
theorem concurrent_swaps_keep {s : Session}
    (h : (concurrent accountOf store).Reaches (ConcurrentMeets accountOf) s) :
    (∀ p q, (s.procs p).holdsLock = true → (s.procs q).holdsLock = true → p = q) ∧
      ((∀ p, (s.procs p).holdsLock = false) →
        s.world.locked = false ∧ AtRest accountOf s.world) ∧
      ∀ label, (∀ p, (s.procs p).adopts ≠ some label) → ∀ a, owner s.world label = some a →
        PairOf accountOf s.world label a := by
  have hs := interleaved_of_reaches h
  refine ⟨hs.alone, hs.rest, fun label hne a howner ↦ ?_⟩
  by_cases hheld : ∃ p, (s.procs p).holdsLock = true
  · obtain ⟨p, hholds⟩ := hheld
    exact phase_pairOf hholds (hs.phase p hholds).2 (hne p) howner
  · have hnone : ∀ p, (s.procs p).holdsLock = false := by
      intro p
      rw [Bool.eq_false_iff]
      exact fun hholds ↦ hheld ⟨p, hholds⟩
    exact (hs.rest hnone).2.pairs.pairOf howner

end

theorem atHome_rest : AtRest tokenAccount atHome := by
  have hsettled := atHome_settled
  obtain ⟨label, a, hactive, howner, htree⟩ := hsettled.active
  refine ⟨hsettled.pairs, hsettled.complete, htree.coherent, fun l hl ↦ ?_⟩
  obtain rfl : label = l := Option.some.inj (hactive.symm.trans hl)
  exact ⟨a, howner, htree⟩

/-- A swap that has put its account into the tree, when another one starts. -/
def midSwap : Session :=
  (solo (turns .file quiet 16 (atHome, useEntry "work"))).set 1 (useEntry "home")

/-- One step of a swap beside an idle command. -/
theorem concurrent_turns {n : ℕ}
    (hmeets : ∀ k < n, StillMeets tokenAccount (turns .file quiet k (atHome, useEntry "work")).1
      (turns .file quiet k (atHome, useEntry "work")).2) :
    (concurrent tokenAccount .file).Reaches (ConcurrentMeets tokenAccount)
      (solo (turns .file quiet n (atHome, useEntry "work"))) := by
  induction n with
  | zero =>
      have hstart : (concurrent tokenAccount .file).start (solo (atHome, .idle)) := by
        refine ⟨atHome_rest, rfl, fun p ↦ ?_⟩
        by_cases hp : p = 0
        · rw [hp, solo_procs]
        · exact solo_procs_ne hp
      refine (System.Reaches.of_start hstart).snoc (e := .start 0 (.use ⟨"work", false, some 3⟩))
        trivial ⟨solo_procs, .inl ⟨_, _, rfl⟩, solo_start.symm⟩
  | succ n ih =>
      refine (ih fun k hk ↦ hmeets k (by omega)).snoc (e := .run 0 quiet) ?_
        ⟨fun _ _ _ _ ↦ .inl rfl, .inr (.inr ⟨_, _, rfl⟩), ?_⟩
      · change StillMeets tokenAccount _ ((solo _).procs 0)
        rw [solo_procs]
        exact hmeets n (by omega)
      · rw [solo_run, turns_succ]

theorem midSwap_kept :
    (∀ p q, (midSwap.procs p).holdsLock = true → (midSwap.procs q).holdsLock = true → p = q) ∧
      ((∀ p, (midSwap.procs p).holdsLock = false) →
        midSwap.world.locked = false ∧ AtRest tokenAccount midSwap.world) ∧
      ∀ label, (∀ p, (midSwap.procs p).adopts ≠ some label) →
        ∀ a, owner midSwap.world label = some a → PairOf tokenAccount midSwap.world label a := by
  have hswap : (concurrent tokenAccount .file).Reaches (ConcurrentMeets tokenAccount)
      (solo (turns .file quiet 16 (atHome, useEntry "work"))) := by
    refine concurrent_turns fun k hk ↦ ?_
    rcases eq_or_ne k 4 with rfl | hne
    · exact ⟨rfl, fun _ _ label hlabel ↦ hlabel⟩
    · interval_cases k
      all_goals first
        | exact absurd rfl hne
        | exact trivial
  have hstarted : (concurrent tokenAccount .file).Reaches (ConcurrentMeets tokenAccount) midSwap :=
    hswap.snoc (e := .start 1 (.use ⟨"home", false, some 3⟩)) trivial
      ⟨solo_procs_ne (by decide), .inl ⟨_, _, rfl⟩, rfl⟩
  exact concurrent_swaps_keep hstarted

end RemoteDevbox.Account
