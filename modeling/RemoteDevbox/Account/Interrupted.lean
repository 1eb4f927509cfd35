import RemoteDevbox.Account.Sequential

namespace RemoteDevbox.Account

/-!
# Interrupted swaps

Swaps one after the other, each of which may end after any step. No login comes
in between, and nobody removes a lock that is left behind.
-/

section

variable (accountOf : String → AccountId) (store : Store)

/-- Every label of the registry has its pair. -/
def Complete (w : World) : Prop :=
  ∀ label, (w.registry.accounts label).isSome → plainLabel label = true ∧
    (w.identity.parked label).isSome ∧ (w.credential.parked label).isSome

/-- The tree holds a pair of this account. -/
def TreeHolds (w : World) (a : AccountId) : Prop :=
  (∃ identity, w.identity.live = some identity ∧ identity.account = a) ∧
    ∃ cred, w.credential.live = some cred ∧ credentialAccount accountOf cred = a

/-- A vault at rest: the tree holds the account of the active label. -/
structure Settled (w : World) : Prop where
  pairs : OwnedPairs accountOf w
  complete : Complete w
  unlocked : w.locked = false
  active : ∃ label a, w.registry.active = some label ∧ owner w label = some a ∧
    TreeHolds accountOf w a

/-- Swaps one after the other, each of which may fail or be killed anywhere. -/
def interrupted : System Session Event where
  start s := Settled accountOf s.world ∧ ∀ p, s.procs p = .idle
  next s e s' := Possible accountOf s e ∧
    (∀ p command, e = .start p command → (∃ u, command = .use u) ∧ ∀ q, s.procs q = .idle) ∧
    (∀ identity cred, e ≠ .login identity cred) ∧ (∀ cred, e ≠ .refresh cred) ∧
    e ≠ .clearLock ∧ s' = s.after store e

/-- A swap starts while what is logged in is still the active label's, or goes to that
label; the organisation check is answered where it has something to tell; and no
swap is killed while it has the lock. -/
def RecoveryMeets (s : Session) : Event → Prop
  | .start _ (.use u) => CaptureMeets accountOf s.world u
  | .run p i => Answered accountOf s.world i (s.procs p)
  | .kill p => (s.procs p).holdsLock = false
  | _ => True

theorem TreeHolds.treeIs {accountOf : String → AccountId} {w : World} {label : String} {a : AccountId}
    (h : TreeHolds accountOf w a) (howner : owner w label = some a) : TreeIs accountOf w label := by
  obtain ⟨⟨identity, hlive, hsame⟩, cred, hcred, hsame'⟩ := h
  refine ⟨a, fun identity' cred' hlive' hcred' ↦ ?_, fun b hb ↦ ?_⟩
  · rw [← Option.some.inj (hlive.symm.trans hlive'), ← Option.some.inj (hcred.symm.trans hcred')]
    exact ⟨hsame, hsame'⟩
  · exact Option.some.inj (howner.symm.trans hb)

/-- The label is active, and its account is in the tree. -/
def Restored (s : Session) (label : String) (a : AccountId) : Prop :=
  (∀ p, s.procs p = .idle) ∧ s.world.registry.active = some label ∧
    TreeHolds accountOf s.world a

variable {accountOf store}

/-- The steps of `use`. -/
def Pc.ofUse : Pc → Bool
  | .extract (.add _) | .save (.add _) _ | .verify (.add _) _ _ | .commitIdentity (.add _) _ _
  | .commitCredential (.add _) _ | .healRead (.adopt ..) | .healWrite (.adopt ..) _
  | .addCheck _ | .addLock _ | .adoptInfo _ | .upsert .. | .rmCheck _ | .rmActive _ | .rmLock _
  | .rmRemove _ | .rmForget _ | .gc _ => false
  | _ => true

/-- What `use` writes leaves the rows and takes nothing out of the vault. -/
structure Grows (w w' : World) : Prop where
  accounts : w'.registry.accounts = w.registry.accounts
  identity : ∀ label, (w.identity.parked label).isSome → (w'.identity.parked label).isSome
  credential : ∀ label, (w.credential.parked label).isSome → (w'.credential.parked label).isSome
  active : w'.registry.active = w.registry.active ∨
    ∃ label, w'.registry.active = some label ∧ (w.registry.accounts label).isSome

theorem Grows.of_eq {w w' : World} (hidentity : w'.identity.parked = w.identity.parked)
    (hcredential : w'.credential.parked = w.credential.parked)
    (hregistry : w'.registry = w.registry) : Grows w w' where
  accounts := by rw [hregistry]
  identity := by
    rw [hidentity]
    exact fun _ h ↦ h
  credential := by
    rw [hcredential]
    exact fun _ h ↦ h
  active := .inl (by rw [hregistry])

theorem isSome_park {V : Type} {s : Slots String V} {label l : String} {v : V}
    (h : (s.parked l).isSome) : ((s.park label v).parked l).isSome := by
  by_cases heq : l = label
  · subst heq
    rw [Slots.park_self]
    rfl
  · rwa [Slots.park_ne heq]

theorem Grows.parkIdentity {w : World} {label : String} {identity : Identity} :
    Grows w (w.apply (.parkIdentity label identity)) :=
  ⟨rfl, fun _ ↦ isSome_park, fun _ h ↦ h, .inl rfl⟩

theorem Grows.parkCredential {w : World} {label : String} {cred : Credential} :
    Grows w (w.apply (.parkCredential label cred)) :=
  ⟨rfl, fun _ h ↦ h, fun _ ↦ isSome_park, .inl rfl⟩

theorem healing_next_ofUse {h : Healing} (hne : ∀ label row, h ≠ .adopt label row) :
    h.next.ofUse = true := by
  cases h with
  | adopt label row => exact (hne label row rfl).elim
  | _ => rfl

/-- A step of `use` goes on in `use`. -/
theorem use_next (store : Store) (i : Inputs) {w : World} {pc : Pc} (h : pc.ofUse = true) :
    (pc.next store i w).2.ofUse = true ∧ Grows w (w.apply (pc.next store i w).1) := by
  cases pc with
  | extract j | save j _ =>
      cases j with
      | add label => cases h
      | use u active =>
          simp only [Pc.next]
          split <;> exact ⟨rfl, .of_eq rfl rfl rfl⟩
  | verify j identity cred =>
      cases j with
      | add label => cases h
      | use u active =>
          simp only [Pc.next]
          split <;> exact ⟨rfl, .of_eq rfl rfl rfl⟩
  | commitIdentity j identity cred =>
      cases j with
      | add label => cases h
      | use u active => exact ⟨rfl, .parkIdentity⟩
  | commitCredential j cred =>
      cases j with
      | add label => cases h
      | use u active => exact ⟨rfl, .parkCredential⟩
  | healRead g =>
      have hne : ∀ label row, g ≠ .adopt label row := by
        rintro label row rfl
        cases h
      simp only [Pc.next]
      split
      · split
        · exact ⟨healing_next_ofUse hne, .of_eq rfl rfl rfl⟩
        · refine ⟨?_, .of_eq rfl rfl rfl⟩
          cases g with
          | adopt label row => exact (hne label row rfl).elim
          | _ => rfl
      · exact ⟨healing_next_ofUse hne, .of_eq rfl rfl rfl⟩
  | healWrite g cred =>
      refine ⟨healing_next_ofUse ?_, .parkCredential⟩
      rintro label row rfl
      cases h
  | activate label =>
      simp only [Pc.next]
      split
      · rename_i hrow
        exact ⟨rfl, rfl, fun _ h ↦ h, fun _ h ↦ h, .inr ⟨label, rfl, hrow⟩⟩
      · exact ⟨rfl, .of_eq rfl rfl rfl⟩
  | addCheck | addLock | adoptInfo | upsert | rmCheck | rmActive | rmLock | rmRemove | rmForget
  | gc => cases h
  | _ =>
      simp only [Pc.next]
      repeat' split
      all_goals exact ⟨rfl, .of_eq rfl rfl rfl⟩

/-! ## What every interruption leaves behind -/

/-- What holds in every state of these runs. -/
structure Recoverable (accountOf : String → AccountId) (s : Session) : Prop where
  alone : Alone s
  pairs : OwnedPairs accountOf s.world
  own : ∀ p, PcOwn accountOf s.world (s.procs p)
  sees : ∀ p, PcSees accountOf s.world (s.procs p)
  uses : ∀ p, (s.procs p).ofUse = true
  locked : s.world.locked = true → ∃ p, (s.procs p).holdsLock = true
  complete : Complete s.world
  active : ∃ label, s.world.registry.active = some label ∧
    (s.world.registry.accounts label).isSome

theorem Complete.of_grows {w w' : World} (h : Complete w) (hgrows : Grows w w') : Complete w' := by
  intro label hrow
  rw [hgrows.accounts] at hrow
  obtain ⟨hplain, hidentity, hcredential⟩ := h label hrow
  exact ⟨hplain, hgrows.identity label hidentity, hgrows.credential label hcredential⟩

theorem active_of_grows {w w' : World} (hgrows : Grows w w')
    (h : ∃ label, w.registry.active = some label ∧ (w.registry.accounts label).isSome) :
    ∃ label, w'.registry.active = some label ∧ (w'.registry.accounts label).isSome := by
  rw [hgrows.accounts]
  rcases hgrows.active with hsame | hnew
  · rwa [hsame]
  · exact hnew

/-- A command keeps the lock until it gives it back. -/
theorem holdsLock_next (store : Store) (i : Inputs) {w : World} {pc : Pc}
    (h : w.locked = true → pc.holdsLock = true) :
    (w.apply (pc.next store i w).1).locked = true → (pc.next store i w).2.holdsLock = true := by
  cases pc with
  | unlock => exact fun hlocked ↦ nomatch hlocked
  | commitCredential j _ => cases j <;> exact fun _ ↦ rfl
  | verify j identity cred =>
      have hnext := verify_next store i w j identity cred
      generalize (Pc.verify j identity cred).next store i w = next at hnext ⊢
      obtain ⟨u, active, rfl, rfl⟩ | rfl | rfl := hnext
      all_goals exact fun _ ↦ rfl
  | healRead g =>
      cases g with
      | again u =>
          simp only [Pc.next]
          split
          · split <;> exact h
          · exact h
      | swap | adopt =>
          simp only [Pc.next]
          split
          · split <;> exact fun _ ↦ rfl
          · exact fun _ ↦ rfl
  | healWrite g _ =>
      cases g with
      | again u => exact h
      | swap | adopt => exact fun _ ↦ rfl
  | _ =>
      simp only [Pc.next]
      repeat' split
      all_goals first
        | exact fun _ ↦ rfl
        | exact h

/-- The world after a step of the one command that may be under way. -/
theorem recoverable_update {s : Session} {w : World} {p : ℕ} {pc : Pc}
    (h : Recoverable accountOf s) (hidle : s.procs p = .idle → pc = .idle ∧ w = s.world)
    (hpairs : OwnedPairs accountOf w) (hown : PcOwn accountOf w pc)
    (hsees : PcSees accountOf w pc) (huse : pc.ofUse = true)
    (hlocked : s.procs p ≠ .idle → w.locked = true → pc.holdsLock = true)
    (hgrows : Grows s.world w) : Recoverable accountOf ⟨w, Function.update s.procs p pc⟩ := by
  by_cases hp : s.procs p = .idle
  · obtain ⟨rfl, rfl⟩ := hidle hp
    rwa [← hp, Function.update_eq_self]
  · obtain ⟨p', hothers⟩ := h.alone
    obtain rfl : p = p' := by
      by_contra hne
      exact hp (hothers p hne)
    refine ⟨⟨p, fun q hq ↦ (Function.update_of_ne hq ..).trans (hothers q hq)⟩, hpairs, ?_, ?_, ?_,
      fun hw ↦ ⟨p, ?_⟩, h.complete.of_grows hgrows, active_of_grows hgrows h.active⟩
    · exact forall_update (P := PcOwn accountOf w) trivial hothers hown
    · exact forall_update (P := PcSees accountOf w) trivial hothers hsees
    · exact forall_update (P := fun pc ↦ pc.ofUse = true) rfl hothers huse
    · change (Function.update s.procs p pc p).holdsLock = true
      rw [Function.update_self]
      exact hlocked hp hw

theorem recoverable_after {s s' : Session} {e : Event} (h : Recoverable accountOf s)
    (hmeets : RecoveryMeets accountOf s e) (hnext : (interrupted accountOf store).next s e s') :
    Recoverable accountOf s' := by
  obtain ⟨hpossible, hstart, hlogin, hrefresh, hclear, rfl⟩ := hnext
  have hsame : Grows s.world s.world := .of_eq rfl rfl rfl
  -- with one command under way, the lock is its own
  have hheld : ∀ p, s.procs p ≠ .idle → s.world.locked = true → (s.procs p).holdsLock = true := by
    intro p hp hlocked
    obtain ⟨q, hq⟩ := h.locked hlocked
    obtain ⟨p', hothers⟩ := h.alone
    have hp' : ∀ r, s.procs r ≠ .idle → r = p' := fun r hr ↦ by
      by_contra hne
      exact hr (hothers r hne)
    have hq' : s.procs q ≠ .idle := fun hidle ↦ by
      rw [hidle] at hq
      cases hq
    rwa [hp' p hp, ← hp' q hq']
  cases e with
  | start p command =>
      obtain ⟨⟨u, rfl⟩, hidle⟩ := hstart p command rfl
      have hothers : ∀ q, q ≠ p → s.procs q = .idle := fun q _ ↦ hidle q
      refine ⟨⟨p, fun q hq ↦ (Function.update_of_ne hq ..).trans (hothers q hq)⟩, h.pairs, ?_, ?_, ?_,
        fun hlocked ↦ ?_, h.complete, h.active⟩
      · exact forall_update (P := PcOwn accountOf s.world) trivial hothers (entry_own (.use u))
      · exact forall_update (P := PcSees accountOf s.world) trivial hothers hmeets
      · exact forall_update (P := fun pc ↦ pc.ofUse = true) rfl hothers rfl
      · -- nobody has the lock
        obtain ⟨q, hq⟩ := h.locked hlocked
        rw [hidle q] at hq
        cases hq
  | run p i =>
      have hfits := (h.sees p).captureFits hmeets hpossible
      obtain ⟨hpairs, hown⟩ := own_next store h.pairs (h.own p) hfits
      obtain ⟨huse, hgrows⟩ := use_next store i (w := s.world) (h.uses p)
      exact recoverable_update h idle_next hpairs hown (sees_next store i (h.sees p)) huse
        (fun hp ↦ holdsLock_next store i (hheld p hp)) hgrows
  | fail p =>
      refine recoverable_update h (fun hp ↦ ?_) h.pairs ?_ ?_ ?_ (fun hp hlocked ↦ ?_) hsame
      · rw [hp]
        exact ⟨rfl, rfl⟩
      · split <;> exact trivial
      · split <;> exact trivial
      · split <;> rfl
      · rw [if_pos (hheld p hp hlocked)]
        rfl
  | kill p =>
      refine recoverable_update h (fun _ ↦ ⟨rfl, rfl⟩) h.pairs trivial trivial rfl
        (fun hp hlocked ↦ ?_) hsame
      have hholds := hheld p hp hlocked
      rw [RecoveryMeets] at hmeets
      rw [hmeets] at hholds
      cases hholds
  | clearLock => exact (hclear rfl).elim
  | login identity cred => exact (hlogin identity cred rfl).elim
  | refresh cred => exact (hrefresh cred rfl).elim

theorem recoverable_of_reaches {s : Session}
    (h : (interrupted accountOf store).Reaches (RecoveryMeets accountOf) s) :
    Recoverable accountOf s := by
  refine h.invariant ?_ fun _ _ _ hs hmeets hnext ↦ recoverable_after hs hmeets hnext
  rintro s ⟨hsettled, hidle⟩
  obtain ⟨label, a, hactive, howner, _⟩ := hsettled.active
  refine ⟨⟨0, fun q _ ↦ hidle q⟩, hsettled.pairs, fun p ↦ ?_, fun p ↦ ?_, fun p ↦ ?_, fun hlocked ↦ ?_,
    hsettled.complete, label, hactive, ?_⟩
  · rw [hidle p]
    exact trivial
  · rw [hidle p]
    exact trivial
  · rw [hidle p]
    rfl
  · rw [hsettled.unlocked] at hlocked
    cases hlocked
  · rw [owner] at howner
    exact Option.isSome_of_eq_some (Option.map_eq_some_iff.mp howner).choose_spec.1

/-! ## The way back to every account -/

/-- A command that runs alone gets from one state to another. -/
def Leads (accountOf : String → AccountId) (store : Store) (st st' : World × Pc) : Prop :=
  (interrupted accountOf store).Path (RecoveryMeets accountOf) (solo st) (solo st')

theorem leads_turn {st st' : World × Pc} (hturn : turn store quiet st = st')
    (hanswered : Answered accountOf st.1 quiet st.2) : Leads accountOf store st st' := by
  refine .single ⟨.run 0 quiet, ?_, fun _ _ _ _ ↦ .inl rfl, (by simp), (by simp), (by simp),
    (by simp), ?_⟩
  · change Answered accountOf st.1 quiet ((solo st).procs 0)
    rwa [solo_procs]
  · rw [solo_run, hturn]

theorem Leads.trans {a b c : World × Pc} (hab : Leads accountOf store a b)
    (hbc : Leads accountOf store b c) : Leads accountOf store a c :=
  Relation.ReflTransGen.trans hab hbc

variable (accountOf store)

/-- The label is active, its credential is live, and the lock is gone. -/
structure Landed (w w' : World) (u : Use) (token : String) : Prop where
  unlocked : w'.locked = false
  active : w'.registry.active = some u.label
  identity : w'.identity.live = w.identity.live
  credential : ∃ cred, w'.credential.live = some cred ∧ cred.accessToken = token

theorem leads_activate {w : World} {u : Use} {cred : Credential}
    (hrow : (w.registry.accounts u.label).isSome) (hlive : w.credential.live = some cred) :
    ∃ w', Leads accountOf store (w, .activate u.label) (w', .idle) ∧
      Landed w w' u cred.accessToken := by
  have hactivate : turn store quiet (w, .activate u.label) =
      (w.apply (.activate u.label), .unlock) := by
    simp [turn, Pc.next, hrow]
  have hunlock : turn store quiet (w.apply (.activate u.label), .unlock) =
      ((w.apply (.activate u.label)).apply .unlock, .idle) := rfl
  exact ⟨_, (leads_turn hactivate trivial).trans (leads_turn hunlock trivial), rfl, rfl, rfl, cred,
    hlive, rfl⟩

theorem leads_storeLoad (captured : Bool) {w : World} {u : Use} {cred : Credential}
    (hrow : (w.registry.accounts u.label).isSome)
    (hparked : w.credential.parked u.dir = some cred) :
    ∃ w', Leads accountOf store (w, .storeLoad u captured) (w', .idle) ∧
      Landed w w' u cred.accessToken := by
  have hload : turn store quiet (w, .storeLoad u captured) = (w.apply (.loadCredential cred),
      if store = .file then .healLiveRead u else .activate u.label) := by
    simp [turn, Pc.next, hparked]
  have hactivate : ∃ w', Leads accountOf store (w.apply (.loadCredential cred), .activate u.label)
      (w', .idle) ∧ Landed w w' u cred.accessToken := by
    obtain ⟨w', hleads, hlanded⟩ := leads_activate accountOf store
      (w := w.apply (.loadCredential cred)) (u := u) hrow rfl
    exact ⟨w', hleads, hlanded.unlocked, hlanded.active, hlanded.identity, hlanded.credential⟩
  cases store with
  | keychain =>
      obtain ⟨w', hleads, hlanded⟩ := hactivate
      exact ⟨w', (leads_turn hload trivial).trans hleads, hlanded⟩
  | file =>
      refine (?_ : ∃ w', Leads accountOf .file (w.apply (.loadCredential cred), .healLiveRead u)
        (w', .idle) ∧ Landed w w' u cred.accessToken).imp fun w' h ↦
          ⟨(leads_turn hload trivial).trans h.1, h.2⟩
      cases hidentity : w.identity.parked u.dir with
      | none =>
          have hread : turn .file quiet (w.apply (.loadCredential cred), .healLiveRead u) =
              (w.apply (.loadCredential cred), .activate u.label) := by
            simp [turn, Pc.next, World.apply, hidentity]
          obtain ⟨w', hleads, hlanded⟩ := hactivate
          exact ⟨w', (leads_turn hread trivial).trans hleads, hlanded⟩
      | some identity =>
          by_cases hheal : heal identity cred = cred
          · have hread : turn .file quiet (w.apply (.loadCredential cred), .healLiveRead u) =
                (w.apply (.loadCredential cred), .activate u.label) := by
              simp [turn, Pc.next, World.apply, hidentity, hheal]
            obtain ⟨w', hleads, hlanded⟩ := hactivate
            exact ⟨w', (leads_turn hread trivial).trans hleads, hlanded⟩
          · have hread : turn .file quiet (w.apply (.loadCredential cred), .healLiveRead u) =
                (w.apply (.loadCredential cred), .healLiveWrite u (heal identity cred)) := by
              simp [turn, Pc.next, World.apply, hidentity, hheal]
            have hwrite : turn .file quiet (w.apply (.loadCredential cred),
                .healLiveWrite u (heal identity cred)) =
                  ((w.apply (.loadCredential cred)).apply (.loadCredential (heal identity cred)),
                    .activate u.label) := rfl
            obtain ⟨w', hleads, hlanded⟩ := leads_activate accountOf .file
              (w := (w.apply (.loadCredential cred)).apply (.loadCredential (heal identity cred)))
              (u := u) hrow rfl
            refine ⟨w', (leads_turn hread trivial).trans ((leads_turn hwrite trivial).trans hleads),
              hlanded.unlocked, hlanded.active, hlanded.identity, ?_⟩
            simpa only [heal_accessToken] using hlanded.credential

theorem leads_identityApply (captured : Bool) {w : World} {u : Use} {identity : Identity}
    {cred : Credential} (hrow : (w.registry.accounts u.label).isSome)
    (hidentity : w.identity.parked u.dir = some identity)
    (hparked : w.credential.parked u.dir = some cred) :
    ∃ w', Leads accountOf store (w, .identityApply u captured) (w', .idle) ∧
      w'.locked = false ∧ w'.registry.active = some u.label ∧
        w'.identity.live = some identity ∧
          ∃ cred', w'.credential.live = some cred' ∧ cred'.accessToken = cred.accessToken := by
  have happly : turn store quiet (w, .identityApply u captured) =
      (w.apply (.applyIdentity (some identity)), .healRead (.swap u captured)) := by
    simp [turn, Pc.next, hidentity]
  by_cases hheal : heal identity cred = cred
  · have hread : turn store quiet (w.apply (.applyIdentity (some identity)),
        .healRead (.swap u captured)) =
          (w.apply (.applyIdentity (some identity)), .storeLoad u captured) := by
      simp [turn, Pc.next, World.apply, Healing.dir, Healing.next, hidentity, hparked, hheal]
    obtain ⟨w', hleads, hlanded⟩ := leads_storeLoad accountOf store captured
      (w := w.apply (.applyIdentity (some identity))) hrow hparked
    exact ⟨w', (leads_turn happly trivial).trans ((leads_turn hread trivial).trans hleads),
      hlanded.unlocked, hlanded.active, hlanded.identity, hlanded.credential⟩
  · have hread : turn store quiet (w.apply (.applyIdentity (some identity)),
        .healRead (.swap u captured)) = (w.apply (.applyIdentity (some identity)),
          .healWrite (.swap u captured) (heal identity cred)) := by
      simp [turn, Pc.next, World.apply, Healing.dir, hidentity, hparked, hheal]
    have hwrite : turn store quiet (w.apply (.applyIdentity (some identity)),
        .healWrite (.swap u captured) (heal identity cred)) =
          ((w.apply (.applyIdentity (some identity))).apply
            (.parkCredential u.dir (heal identity cred)), .storeLoad u captured) := rfl
    let w₁ := (w.apply (.applyIdentity (some identity))).apply
      (.parkCredential u.dir (heal identity cred))
    have hhealed : w₁.credential.parked u.dir = some (heal identity cred) := Slots.park_self
    obtain ⟨w', hleads, hlanded⟩ := leads_storeLoad accountOf store captured (w := w₁) hrow hhealed
    exact ⟨w', (leads_turn happly trivial).trans ((leads_turn hread trivial).trans
      ((leads_turn hwrite trivial).trans hleads)), hlanded.unlocked, hlanded.active,
      hlanded.identity, hlanded.credential⟩

/-- A label of the registry, with its pair. -/
theorem Complete.pair {w : World} (h : Complete w) {u : Use} {a : AccountId}
    (howner : owner w u.label = some a) :
    u.dir = u.label ∧ (w.registry.accounts u.label).isSome ∧
      (∃ identity, w.identity.parked u.dir = some identity) ∧
        ∃ cred, w.credential.parked u.dir = some cred := by
  have hrow : (w.registry.accounts u.label).isSome :=
    Option.isSome_of_eq_some (Option.map_eq_some_iff.mp howner).choose_spec.1
  obtain ⟨hplain, hidentity, hcredential⟩ := h u.label hrow
  have hdir : u.dir = u.label := if_pos hplain
  rw [hdir]
  exact ⟨rfl, hrow, Option.isSome_iff_exists.mp hidentity, Option.isSome_iff_exists.mp hcredential⟩

/-- Where the pair of a label is applied, its account is in the tree in the end. -/
theorem leads_restored (u : Use) (captured : Bool) {w : World} {a : AccountId}
    (hpairs : OwnedPairs accountOf w) (hcomplete : Complete w)
    (howner : owner w u.label = some a) :
    ∃ w', Leads accountOf store (w, .identityApply u captured) (w', .idle) ∧
      w'.locked = false ∧ w'.registry.active = some u.label ∧ TreeHolds accountOf w' a := by
  obtain ⟨hdir, hrow, ⟨identity, hidentity⟩, cred, hparked⟩ := hcomplete.pair howner
  obtain ⟨w', hleads, hunlocked, hactive, hlive, cred', hcred', htoken⟩ :=
    leads_identityApply accountOf store captured hrow hidentity hparked
  rw [hdir] at hidentity hparked
  refine ⟨w', hleads, hunlocked, hactive, ⟨identity, hlive, ?_⟩, cred', hcred', ?_⟩
  · exact hpairs.identity _ a identity howner hidentity
  · rw [credentialAccount, htoken]
    exact hpairs.credential _ a cred howner hparked

/-- `use label --force` -/
def forced (label : String) : Use := ⟨label, true, some 3⟩

theorem leads_forced_active {w : World} {label : String} {a : AccountId}
    (hcomplete : Complete w) (howner : owner w label = some a) (hunlocked : w.locked = false)
    (hactive : w.registry.active = some label) :
    Leads accountOf store (w, .useCheck (forced label))
      (w.apply .lock, .identityApply (forced label) false) := by
  obtain ⟨_, _, ⟨identity, hidentity⟩, cred, hparked⟩ := hcomplete.pair (u := forced label) howner
  have hcheck : turn store quiet (w, .useCheck (forced label)) =
      (w, .useActive (forced label)) := by
    simp [turn, Pc.next, hidentity, hparked]
  have hread : turn store quiet (w, .useActive (forced label)) = (w, .useStore (forced label)) := by
    simp [turn, Pc.next, hactive, forced]
  have hrunning : ∀ healOnly, turn store quiet
      (w, .useRunning (forced label) (some label) healOnly) =
        (w, .useLock (forced label) (some label) healOnly) :=
    fun _ ↦ rfl
  have hlock : ∀ healOnly, turn store quiet (w, .useLock (forced label) (some label) healOnly) =
      (w.apply .lock, .useTree (forced label) (some label) healOnly) := by
    intro healOnly
    simp [turn, Pc.next, hunlocked]
  refine (leads_turn hcheck trivial).trans ((leads_turn hread trivial).trans ?_)
  cases hlive : w.credential.live with
  | none =>
      have hstore : turn store quiet (w, .useStore (forced label)) =
          (w, .useRunning (forced label) (some label) false) := by
        simp [turn, Pc.next, hlive, forced]
      have hlocked : (w.apply .lock).credential.live = none := hlive
      have htree : turn store quiet (w.apply .lock, .useTree (forced label) (some label) false) =
          (w.apply .lock, .identityApply (forced label) false) := by
        simp [turn, Pc.next, hlocked]
      exact (leads_turn hstore trivial).trans ((leads_turn (hrunning _) trivial).trans
        ((leads_turn (hlock _) trivial).trans (leads_turn htree trivial)))
  | some live =>
      have hstore : turn store quiet (w, .useStore (forced label)) =
          (w, .useCompare (forced label)) := by
        simp [turn, Pc.next, hlive]
      have hcompare : turn store quiet (w, .useCompare (forced label)) =
          (w, .useRunning (forced label) (some label) true) := by
        simp [turn, Pc.next, forced]
      have htree : turn store quiet (w.apply .lock, .useTree (forced label) (some label) true) =
          (w.apply .lock, .identityApply (forced label) false) := by
        simp [turn, Pc.next]
      exact (leads_turn hstore trivial).trans ((leads_turn hcompare trivial).trans
        ((leads_turn (hrunning _) trivial).trans ((leads_turn (hlock _) trivial).trans
          (leads_turn htree trivial))))

theorem verifyOrg_unasked {identity : Identity} {cred : Credential} :
    verifyOrg identity cred none ≠ .differs := by
  unfold verifyOrg
  simp only [Option.map_none]
  split
  · decide
  · split <;> decide

/-- From the account of the active label to another one: its pair is captured
on the way. -/
theorem leads_forced_other {w : World} {label active : String} {a b : AccountId}
    (hpairs : OwnedPairs accountOf w) (hcomplete : Complete w)
    (howner : owner w label = some a) (hactiveOwner : owner w active = some b)
    (hunlocked : w.locked = false) (hactive : w.registry.active = some active)
    (hne : active ≠ label) (htree : TreeHolds accountOf w b) :
    ∃ w', Leads accountOf store (w, .useCheck (forced label))
      (w', .identityApply (forced label) true) ∧ OwnedPairs accountOf w' ∧ Complete w' ∧
        owner w' label = some a := by
  obtain ⟨⟨identity, hlive, hidentityOf⟩, cred, hcred, hcredOf⟩ := htree
  obtain ⟨_, _, ⟨parkedIdentity, hidentity⟩, parkedCred, hparked⟩ :=
    hcomplete.pair (u := forced label) howner
  let w₁ := w.apply .lock
  let w₂ := w₁.apply (.parkIdentity active identity)
  let w₃ := w₂.apply (.parkCredential active cred)
  let w₄ := w₃.apply (.backup ⟨quiet.now ++ "-" ++ active, w₃.identity.parked active,
    w₃.credential.parked active⟩)
  let job := Job.use (forced label) active
  have hcheck : turn store quiet (w, .useCheck (forced label)) =
      (w, .useActive (forced label)) := by
    simp [turn, Pc.next, hidentity, hparked]
  have hread : turn store quiet (w, .useActive (forced label)) =
      (w, .useRunning (forced label) (some active) false) := by
    simp [turn, Pc.next, hactive, forced, hne]
  have hrunning : turn store quiet (w, .useRunning (forced label) (some active) false) =
      (w, .useLock (forced label) (some active) false) := rfl
  have hlock : turn store quiet (w, .useLock (forced label) (some active) false) =
      (w₁, .useTree (forced label) (some active) false) := by
    simp [turn, Pc.next, hunlocked, w₁]
  have htree : turn store quiet (w₁, .useTree (forced label) (some active) false) =
      (w₁, .extract job) := by
    simp [turn, Pc.next, w₁, World.apply, hcred, job]
  have hextract : turn store quiet (w₁, .extract job) = (w₁, .save job identity) := by
    simp [turn, Pc.next, w₁, World.apply, hlive]
  have hsave : turn store quiet (w₁, .save job identity) = (w₁, .verify job identity cred) := by
    simp [turn, Pc.next, w₁, World.apply, hcred]
  have hverify : turn store quiet (w₁, .verify job identity cred) =
      (w₁, .commitIdentity job identity cred) := by
    have hsame : verifyOrg identity cred quiet.org ≠ .differs := verifyOrg_unasked
    simp [turn, Pc.next, hsame]
  have hcommit : turn store quiet (w₁, .commitIdentity job identity cred) =
      (w₂, .commitCredential job cred) := rfl
  have hcommitted : turn store quiet (w₂, .commitCredential job cred) =
      (w₃, .snapshot (forced label) active) := rfl
  have hsnapshot : turn store quiet (w₃, .snapshot (forced label) active) =
      (w₄, .usePrune (forced label)) := rfl
  have hprune : turn store quiet (w₄, .usePrune (forced label)) =
      (w₄.apply (.prune 3), .identityApply (forced label) true) := rfl
  -- the captured pair is the active label's
  have hactiveFits : ∀ c, owner w active = some c → identity.account = c := by
    intro c hc
    rw [hidentityOf]
    exact Option.some.inj (hactiveOwner.symm.trans hc)
  have hcredFits : ∀ c, owner w active = some c → credentialAccount accountOf cred = c := by
    intro c hc
    rw [hcredOf]
    exact Option.some.inj (hactiveOwner.symm.trans hc)
  have htreeIs : TreeIs accountOf w₁ active := by
    refine ⟨b, fun identity' cred' hlive' hcred' ↦ ?_, fun c hc ↦ ?_⟩
    · rw [← Option.some.inj (hlive.symm.trans hlive'), ← Option.some.inj (hcred.symm.trans hcred')]
      exact ⟨hidentityOf, hcredOf⟩
    · exact Option.some.inj (hactiveOwner.symm.trans hc)
  have hanswered : Answered accountOf w₁ quiet (.verify job identity cred) :=
    fun htorn ↦ (htreeIs.not_torn htorn).elim
  have hlocked : OwnedPairs accountOf w₁ := hpairs.of_parked rfl rfl rfl
  have hpairs₃ : OwnedPairs accountOf w₃ :=
    (hlocked.parkIdentity hactiveFits).parkCredential hcredFits
  have hcomplete₃ : Complete w₃ := by
    have hlockedComplete : Complete w₁ := hcomplete.of_grows (.of_eq rfl rfl rfl)
    exact (hlockedComplete.of_grows .parkIdentity).of_grows .parkCredential
  refine ⟨w₄.apply (.prune 3), ?_, hpairs₃.of_parked rfl rfl rfl,
    hcomplete₃.of_grows (.of_eq rfl rfl rfl), howner⟩
  exact (leads_turn hcheck trivial).trans <| (leads_turn hread trivial).trans <|
    (leads_turn hrunning trivial).trans <| (leads_turn hlock trivial).trans <|
    (leads_turn htree trivial).trans <| (leads_turn hextract trivial).trans <|
    (leads_turn hsave trivial).trans <| (leads_turn hverify hanswered).trans <|
    (leads_turn hcommit trivial).trans <| (leads_turn hcommitted trivial).trans <|
    (leads_turn hsnapshot trivial).trans (leads_turn hprune trivial)

/-- A swap that nothing disturbs, from a vault with no command under way. -/
theorem path_forced {w : World} {label : String} {a : AccountId}
    (hmeets : CaptureMeets accountOf w (forced label))
    (h : ∃ w', Leads accountOf store (w, .useCheck (forced label)) (w', .idle) ∧
      w'.registry.active = some label ∧ TreeHolds accountOf w' a ∧ w'.locked = false) :
    ∃ w', (interrupted accountOf store).Path (RecoveryMeets accountOf) (solo (w, .idle))
      (solo (w', .idle)) ∧ Restored accountOf (solo (w', .idle)) label a ∧ w'.locked = false := by
  obtain ⟨w', hleads, hactive, htree, hunlocked⟩ := h
  have hidle : ∀ (v : World) q, (solo (v, .idle)).procs q = .idle := by
    intro v q
    by_cases hq : q = 0
    · rw [hq, solo_procs]
    · exact solo_procs_ne hq
  refine ⟨w', ?_, ⟨hidle w', hactive, htree⟩, hunlocked⟩
  have hstart : (interrupted accountOf store).Step (RecoveryMeets accountOf) (solo (w, .idle))
      (solo (w, (Command.use (forced label)).entry)) := by
    refine ⟨.start 0 (.use (forced label)), hmeets, solo_procs, ?_, (by simp), (by simp), (by simp),
      solo_start.symm⟩
    rintro _ _ ⟨⟩
    exact ⟨⟨_, rfl⟩, hidle w⟩
  exact Relation.ReflTransGen.head hstart hleads

/-- The active label's account comes back into the tree. -/
theorem path_forced_active {w : World} {label : String} {a : AccountId}
    (hpairs : OwnedPairs accountOf w) (hcomplete : Complete w) (howner : owner w label = some a)
    (hunlocked : w.locked = false) (hactive : w.registry.active = some label) :
    ∃ w', (interrupted accountOf store).Path (RecoveryMeets accountOf) (solo (w, .idle))
      (solo (w', .idle)) ∧ Restored accountOf (solo (w', .idle)) label a ∧ w'.locked = false := by
  have hlocked : OwnedPairs accountOf (w.apply .lock) := hpairs.of_parked rfl rfl rfl
  have hlockedComplete : Complete (w.apply .lock) := hcomplete.of_grows (.of_eq rfl rfl rfl)
  obtain ⟨w', hleads, hunlocked', hactive', htree⟩ := leads_restored accountOf store
    (forced label) false hlocked hlockedComplete howner
  have hentry := leads_forced_active accountOf store hcomplete howner
    hunlocked hactive
  refine path_forced accountOf store (fun l hl hne ↦ ?_)
    ⟨w', hentry.trans hleads, hactive', htree, hunlocked'⟩
  exact absurd (Option.some.inj (hl.symm.trans hactive)) hne

/-- From the active label's account to another one. -/
theorem path_forced_other {w : World} {label active : String} {a b : AccountId}
    (hpairs : OwnedPairs accountOf w) (hcomplete : Complete w)
    (howner : owner w label = some a) (hactiveOwner : owner w active = some b)
    (hunlocked : w.locked = false) (hactive : w.registry.active = some active)
    (hne : active ≠ label) (htree : TreeHolds accountOf w b) :
    ∃ w', (interrupted accountOf store).Path (RecoveryMeets accountOf) (solo (w, .idle))
      (solo (w', .idle)) ∧ Restored accountOf (solo (w', .idle)) label a ∧ w'.locked = false := by
  obtain ⟨w₁, hcaptured, hpairs₁, hcomplete₁, howner₁⟩ := leads_forced_other accountOf store
    hpairs hcomplete howner hactiveOwner hunlocked hactive hne htree
  obtain ⟨w₂, hleads, hunlocked₂, hactive₂, htree₂⟩ := leads_restored accountOf store
    (forced label) true hpairs₁ hcomplete₁ howner₁
  refine path_forced accountOf store (fun l hl _ ↦ .inr ?_)
    ⟨w₂, hcaptured.trans hleads, hactive₂, htree₂, hunlocked₂⟩
  obtain rfl : active = l := Option.some.inj (hactive.symm.trans hl)
  exact htree.treeIs hactiveOwner

theorem solo_idle {w : World} {procs : ℕ → Pc} (h : ∀ p, procs p = .idle) :
    (⟨w, procs⟩ : Session) = solo (w, .idle) := by
  have hprocs : procs = Function.update (fun _ ↦ .idle) 0 .idle := by
    rw [Function.update_eq_self]
    exact funext h
  rw [solo, hprocs]

/-- The command under way fails, and gives its lock back. -/
theorem path_ended {s : Session} (h : Recoverable accountOf s) :
    (interrupted accountOf store).Path (RecoveryMeets accountOf) s
      (solo ({ s.world with locked := false }, .idle)) := by
  obtain ⟨p, hothers⟩ := h.alone
  have hidle : ∀ pc q, q ≠ p → Function.update s.procs p pc q = .idle :=
    fun pc q hq ↦ (Function.update_of_ne hq ..).trans (hothers q hq)
  have hset : ∀ q, Function.update s.procs p .idle q = .idle := by
    intro q
    by_cases hq : q = p
    · rw [hq, Function.update_self]
    · exact hidle _ q hq
  have hfailed : (interrupted accountOf store).Step (RecoveryMeets accountOf) s
      (s.set p (if (s.procs p).holdsLock then .unlock else .idle)) :=
    ⟨.fail p, trivial, trivial, (by simp), (by simp), (by simp), (by simp), rfl⟩
  cases hholds : (s.procs p).holdsLock with
  | false =>
      have hfree : s.world.locked = false := by
        rw [Bool.eq_false_iff]
        intro hlocked
        obtain ⟨q, hq⟩ := h.locked hlocked
        by_cases heq : q = p
        · rw [heq, hholds] at hq
          cases hq
        · rw [hothers q heq] at hq
          cases hq
      have hend : s.set p .idle = solo ({ s.world with locked := false }, .idle) := by
        rw [Session.set, solo_idle hset, ← hfree]
      rw [hholds, if_neg Bool.false_ne_true, hend] at hfailed
      exact .single hfailed
  | true =>
      rw [hholds, if_pos rfl] at hfailed
      refine Relation.ReflTransGen.head hfailed (.single ⟨.run p quiet, ?_, ?_, (by simp), (by simp),
        (by simp), (by simp), ?_⟩)
      · change Answered accountOf s.world quiet (Function.update s.procs p .unlock p)
        rw [Function.update_self]
        exact trivial
      · rintro j identity cred hpc
        exact .inl rfl
      · simp only [Session.after, Session.set, Function.update_self, Function.update_idem, Pc.next]
        exact (solo_idle hset).symm

variable {accountOf store}

/-- No step of these runs changes a row. -/
theorem accounts_of_path {s s' : Session} (h : Recoverable accountOf s)
    (hpath : (interrupted accountOf store).Path (RecoveryMeets accountOf) s s') :
    Recoverable accountOf s' ∧ s'.world.registry.accounts = s.world.registry.accounts := by
  refine hpath.preserves (I := fun t ↦ Recoverable accountOf t ∧
    t.world.registry.accounts = s.world.registry.accounts) ?_ ⟨h, rfl⟩
  rintro t e t' ⟨ht, hrows⟩ hmeets hnext
  refine ⟨recoverable_after ht hmeets hnext, ?_⟩
  rw [← hrows]
  obtain ⟨_, _, hlogin, hrefresh, _, rfl⟩ := hnext
  cases e with
  | run p i => exact (use_next store i (ht.uses p)).2.accounts
  | login identity cred => exact (hlogin identity cred rfl).elim
  | refresh cred => exact (hrefresh cred rfl).elim
  | _ => rfl

/-- In every run of swaps that may end after any step, with no login in between, each
of which starts with the active label's account logged in or goes to that label, and
none of which leaves its lock behind: what is parked under a label belongs to it, the
pair is complete, and every label can be swapped to. -/
theorem interrupted_swap_recoverable {s : Session}
    (h : (interrupted accountOf store).Reaches (RecoveryMeets accountOf) s) :
    OwnedPairs accountOf s.world ∧ Complete s.world ∧
      ∀ label a, owner s.world label = some a →
        ∃ s', (interrupted accountOf store).Path (RecoveryMeets accountOf) s s' ∧
          Restored accountOf s' label a := by
  have hrecoverable := recoverable_of_reaches h
  refine ⟨hrecoverable.pairs, hrecoverable.complete, fun label a howner ↦ ?_⟩
  obtain ⟨active, hactive, hrow⟩ := hrecoverable.active
  obtain ⟨row, hrow⟩ := Option.isSome_iff_exists.mp hrow
  have hactiveOwner : owner s.world active = some row.account := by rw [owner, hrow, Option.map_some]
  let w₀ : World := { s.world with locked := false }
  have hpairs₀ : OwnedPairs accountOf w₀ := hrecoverable.pairs.of_parked rfl rfl rfl
  have hcomplete₀ : Complete w₀ := hrecoverable.complete.of_grows (.of_eq rfl rfl rfl)
  have hended := path_ended accountOf store hrecoverable
  -- first the account of the active label comes back
  obtain ⟨w₁, hpath₁, hrestored₁, hunlocked₁⟩ := path_forced_active accountOf store hpairs₀
    hcomplete₀ hactiveOwner rfl hactive
  have hpath := Relation.ReflTransGen.trans hended hpath₁
  by_cases hsame : active = label
  · subst hsame
    obtain rfl : row.account = a := Option.some.inj (hactiveOwner.symm.trans howner)
    exact ⟨_, hpath, hrestored₁⟩
  · -- then the other one
    obtain ⟨hrecoverable₁, hrows⟩ := accounts_of_path hrecoverable hpath
    have hrows₁ : ∀ l, owner w₁ l = owner s.world l := by
      intro l
      change (w₁.registry.accounts l).map _ = _
      rw [show w₁.registry.accounts = s.world.registry.accounts from hrows]
      rfl
    obtain ⟨w₂, hpath₂, hrestored₂, _⟩ := path_forced_other accountOf store
      hrecoverable₁.pairs hrecoverable₁.complete ((hrows₁ label).trans howner) ((hrows₁ active).trans hactiveOwner)
      hunlocked₁ hrestored₁.2.1 hsame hrestored₁.2.2
    exact ⟨_, Relation.ReflTransGen.trans hpath hpath₂, hrestored₂⟩

end

/-- `ada` and `bob` are adopted, and `bob` is logged in and active. -/
def atHome : World :=
  { visited with
    identity := visited.identity.setLive (some (identityOf "bob"))
    credential := visited.credential.setLive (some (credentialOf "bob")) }

theorem atHome_settled : Settled tokenAccount atHome := by
  refine ⟨visited_owned.of_parked rfl rfl rfl, fun label hrow ↦ ?_, rfl, "home", ⟨"bob", "bob"⟩,
    rfl, rfl, ⟨_, rfl, rfl⟩, _, rfl, rfl⟩
  by_cases hhome : label = "home"
  · subst hhome
    exact ⟨by decide +kernel, rfl, rfl⟩
  · by_cases hwork : label = "work"
    · subst hwork
      exact ⟨by decide +kernel, rfl, rfl⟩
    · have hnone : atHome.registry.accounts label = none :=
        (Function.update_of_ne hhome ..).trans (Function.update_of_ne hwork ..)
      rw [hnone] at hrow
      cases hrow

theorem atHome_start : (interrupted tokenAccount .file).start (solo (atHome, .idle)) := by
  refine ⟨atHome_settled, fun p ↦ ?_⟩
  by_cases hp : p = 0
  · rw [hp, solo_procs]
  · exact solo_procs_ne hp

/-- A swap runs alone for some steps, all of which meet the condition. -/
theorem interrupted_turns {meets : Session → Event → Prop} {w : World} (label : String) (n : ℕ)
    (h : (interrupted tokenAccount .file).Reaches meets (solo (w, .idle)))
    (hstart : meets (solo (w, .idle)) (.start 0 (.use ⟨label, false, some 3⟩)))
    (hmeets : ∀ k < n, meets (solo (turns .file quiet k (w, useEntry label))) (.run 0 quiet)) :
    (interrupted tokenAccount .file).Reaches meets
      (solo (turns .file quiet n (w, useEntry label))) := by
  induction n with
  | zero =>
      refine h.snoc hstart ⟨solo_procs, ?_, (by simp), (by simp), (by simp), solo_start.symm⟩
      rintro _ _ ⟨⟩
      refine ⟨⟨_, rfl⟩, fun q ↦ ?_⟩
      by_cases hq : q = 0
      · rw [hq, solo_procs]
      · exact solo_procs_ne hq
  | succ n ih =>
      refine (ih fun k hk ↦ hmeets k (by omega)).snoc (hmeets n (by omega))
        ⟨fun _ _ _ _ ↦ .inl rfl, (by simp), (by simp), (by simp), (by simp), ?_⟩
      rw [solo_run, turns_succ]

/-- `use work` has put `ada` into the tree when it ends before it says so. -/
def cutShort : World := (turns .file quiet 16 (atHome, useEntry "work")).1

theorem cutShort_reached {meets : Session → Event → Prop}
    (hstart : meets (solo (atHome, .idle)) (.start 0 (.use ⟨"work", false, some 3⟩)))
    (hfail : ∀ s p, meets s (.fail p))
    (hmeets : ∀ k < 16, meets (solo (turns .file quiet k (atHome, useEntry "work")))
      (.run 0 quiet))
    (hunlock : meets (solo (cutShort, .unlock)) (.run 0 quiet)) :
    (interrupted tokenAccount .file).Reaches meets (solo (cutShort.apply .unlock, .idle)) := by
  have hswap := interrupted_turns "work" 16 (.of_start atHome_start) hstart hmeets
  have hfailed : (interrupted tokenAccount .file).Reaches meets (solo (cutShort, .unlock)) :=
    hswap.snoc (hfail _ 0) ⟨trivial, (by simp), (by simp), (by simp), (by simp), solo_fail.symm⟩
  have hturn : turn .file quiet (cutShort, .unlock) = (cutShort.apply .unlock, .idle) := rfl
  refine hfailed.snoc hunlock
    ⟨fun _ _ _ _ ↦ .inl rfl, (by simp), (by simp), (by simp), (by simp), ?_⟩
  rw [solo_run, hturn]

/-- No command can take the lock. -/
def Stuck (s : Session) : Prop :=
  s.world.locked = true ∧ ∀ p, (s.procs p).holdsLock = false ∧ (s.procs p).ofUse = true

/-- What `use` does without the lock leaves the registry. -/
theorem outside_locked (store : Store) (i : Inputs) {w : World} {pc : Pc} (hlocked : w.locked = true)
    (hfree : pc.holdsLock = false) (huse : pc.ofUse = true) :
    (w.apply (pc.next store i w).1).locked = true ∧ (pc.next store i w).2.holdsLock = false ∧
      (w.apply (pc.next store i w).1).registry = w.registry := by
  cases pc with
  | useLock u active healOnly =>
      simp only [Pc.next, if_pos hlocked]
      exact ⟨hlocked, rfl, rfl⟩
  | healRead g =>
      cases g with
      | again u =>
          simp only [Pc.next]
          split
          · split <;> exact ⟨hlocked, rfl, rfl⟩
          · exact ⟨hlocked, rfl, rfl⟩
      | swap | adopt => cases hfree
  | healWrite g _ =>
      cases g with
      | again u => exact ⟨hlocked, rfl, rfl⟩
      | swap | adopt => cases hfree
  | idle | useCheck | useActive | useStore | useCompare | reload | useRunning =>
      simp only [Pc.next]
      repeat' split
      all_goals exact ⟨hlocked, rfl, rfl⟩
  | addCheck | addLock | rmCheck | rmActive | rmLock | gc => cases huse
  | _ => cases hfree

/-- A lock that is left behind keeps every later swap from changing the label. -/
theorem stuck_registry {accountOf : String → AccountId} {store : Store} {s s' : Session} (h : Stuck s)
    (hpath : (interrupted accountOf store).Path (fun _ _ ↦ True) s s') :
    s'.world.registry = s.world.registry := by
  refine (hpath.preserves (I := fun t ↦ Stuck t ∧ t.world.registry = s.world.registry) ?_
    ⟨h, rfl⟩).2
  rintro t e t' ⟨⟨hlocked, hprocs⟩, hregistry⟩ _ ⟨_, hstart, hlogin, hrefresh, hclear, rfl⟩
  have hset : ∀ p pc, pc.holdsLock = false ∧ pc.ofUse = true → ∀ q,
      (Function.update t.procs p pc q).holdsLock = false ∧
        (Function.update t.procs p pc q).ofUse = true := by
    intro p pc hpc q
    by_cases hq : q = p
    · subst hq
      rwa [Function.update_self]
    · rw [Function.update_of_ne hq]
      exact hprocs q
  cases e with
  | start p command =>
      obtain ⟨⟨u, rfl⟩, _⟩ := hstart p command rfl
      exact ⟨⟨hlocked, hset p _ ⟨rfl, rfl⟩⟩, hregistry⟩
  | run p i =>
      obtain ⟨hlocked', hfree, hsame⟩ :=
        outside_locked store i hlocked (hprocs p).1 (hprocs p).2
      exact ⟨⟨hlocked', hset p _ ⟨hfree, (use_next store i (w := t.world) (hprocs p).2).1⟩⟩,
        hsame.trans hregistry⟩
  | fail p =>
      refine ⟨⟨hlocked, hset p _ ?_⟩, hregistry⟩
      rw [(hprocs p).1]
      exact ⟨rfl, rfl⟩
  | kill p => exact ⟨⟨hlocked, hset p _ ⟨rfl, rfl⟩⟩, hregistry⟩
  | clearLock => exact (hclear rfl).elim
  | login identity cred => exact (hlogin identity cred rfl).elim
  | refresh cred => exact (hrefresh cred rfl).elim

/-- The next `use work` captures `ada`'s pair under `home`, which is `bob`'s; and a swap
that is killed with the lock leaves `work` out of reach. -/
theorem cutShort_misplaces :
    (∃ s, (interrupted tokenAccount .file).Reaches (fun _ _ ↦ True) s ∧
      owner s.world "home" = some ⟨"bob", "bob"⟩ ∧
        s.world.credential.parked "home" = some (credentialOf "ada") ∧
          ¬ OwnedPairs tokenAccount s.world) ∧
    ∃ s, (interrupted tokenAccount .file).Reaches (fun _ _ ↦ True) s ∧
      owner s.world "work" = some ⟨"ada", "ada"⟩ ∧
        ∀ s', (interrupted tokenAccount .file).Path (fun _ _ ↦ True) s s' →
          ¬ Restored tokenAccount s' "work" ⟨"ada", "ada"⟩ := by
  constructor
  · have hstopped : (interrupted tokenAccount .file).Reaches (fun _ _ ↦ True)
        (solo (cutShort.apply .unlock, .idle)) :=
      cutShort_reached trivial (fun _ _ ↦ trivial) (fun _ _ ↦ trivial) trivial
    refine ⟨_, interrupted_turns "work" 10 hstopped trivial fun _ _ ↦ trivial, rfl, rfl,
      fun hpairs ↦ ?_⟩
    have hforeign := hpairs.credential "home" ⟨"bob", "bob"⟩ (credentialOf "ada") rfl rfl
    exact absurd hforeign (by decide +kernel)
  · -- `use work` is killed when it has the lock
    let st := turns .file quiet 4 (atHome, useEntry "work")
    have hlocked : (interrupted tokenAccount .file).Reaches (fun _ _ ↦ True) (solo st) :=
      interrupted_turns "work" 4 (.of_start atHome_start) trivial fun _ _ ↦ trivial
    have hkilled : (interrupted tokenAccount .file).Reaches (fun _ _ ↦ True)
        ((solo st).set 0 .idle) :=
      hlocked.snoc (e := .kill 0) trivial
        ⟨trivial, (by simp), (by simp), (by simp), (by simp), rfl⟩
    have hstuck : Stuck ((solo st).set 0 .idle) := by
      refine ⟨rfl, fun p ↦ ?_⟩
      have hidle : ((solo st).set 0 .idle).procs p = .idle := by
        by_cases hp : p = 0
        · subst hp
          simp [Session.set]
        · exact (Function.update_of_ne hp ..).trans (solo_procs_ne hp)
      rw [hidle]
      exact ⟨rfl, rfl⟩
    refine ⟨_, hkilled, rfl, fun s' hpath hrestored ↦ ?_⟩
    have hactive := hrestored.2.1
    rw [stuck_registry hstuck hpath] at hactive
    have hhome : some "home" = some "work" := hactive
    exact absurd hhome (by decide)

/-- The first swap is in order, and so is what it leaves behind. -/
theorem cutShort_recoverable :
    OwnedPairs tokenAccount (cutShort.apply .unlock) ∧ Complete (cutShort.apply .unlock) ∧
      ∀ label a, owner (cutShort.apply .unlock) label = some a →
        ∃ s', (interrupted tokenAccount .file).Path (RecoveryMeets tokenAccount)
          (solo (cutShort.apply .unlock, .idle)) s' ∧ Restored tokenAccount s' label a := by
  have hreached : (interrupted tokenAccount .file).Reaches (RecoveryMeets tokenAccount)
      (solo (cutShort.apply .unlock, .idle)) := by
    have htree : TreeIs tokenAccount atHome "home" := by
      obtain ⟨label, a, hactive, howner, htree⟩ := atHome_settled.active
      obtain rfl : "home" = label := Option.some.inj hactive
      exact htree.treeIs howner
    refine cutShort_reached (fun label hlabel _ ↦ ?_) (fun _ _ ↦ trivial) (fun k hk ↦ ?_) trivial
    · obtain rfl : "home" = label := Option.some.inj hlabel
      exact .inr htree
    rcases eq_or_ne k 7 with rfl | hne
    · exact fun htorn ↦ (htree.not_torn htorn).elim
    · interval_cases k
      all_goals first
        | exact absurd rfl hne
        | exact trivial
  exact interrupted_swap_recoverable hreached

end RemoteDevbox.Account
