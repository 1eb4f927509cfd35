import Mathlib.Tactic.IntervalCases
import RemoteDevbox.Account.Logins

namespace RemoteDevbox.Account

/-!
# Commands one after the other

At most one command is under way; logins and refreshed tokens come at any time,
also between its steps.
-/

section

variable (accountOf : String → AccountId) (store : Store)

/-- Commands one after the other, on a vault in order. A step may fail or be the
last one, and a stale lock may be removed. -/
def sequential : System Session Event where
  start s := OwnedPairs accountOf s.world ∧ ∀ p, s.procs p = .idle
  next s e s' := Possible accountOf s e ∧
    (∀ p command, e = .start p command → ∀ q, s.procs q = .idle) ∧ s' = s.after store e

/-- What a command needs of the tree when it starts. `use` of the active label
restores its pair over what is logged in, of which there is a copy; `use` of another
one first parks what is logged in, which is the active label's, and `add` parks it
under its own label. -/
def CommandMeets (w : World) : Command → Prop
  | .use u => (w.registry.active = some u.label → LiveStored w) ∧ CaptureMeets accountOf w u
  | .add label => TreeMeets accountOf w label
  | .rm _ | .gc _ => True

/-- A login leaves a command what it needs: before the command reads the tree it may be
another login of the same kind, and none comes until the command is done with the
tree. -/
def Admits (w : World) : Pc → Prop
  | .useCheck u | .useActive u => CommandMeets accountOf w (.use u)
  | .useStore _ => LiveStored w
  | .useRunning _ _ false | .useLock _ _ false | .useTree _ _ false | .extract (.use ..) =>
      ∀ label, w.registry.active = some label → TreeMeets accountOf w label
  | .addCheck label | .addLock label | .extract (.add label) => TreeMeets accountOf w label
  | .useCompare _ | .reload _ | .useRunning _ _ true | .useLock _ _ true | .useTree _ _ true
  | .save .. | .verify .. | .commitIdentity (.use ..) _ _ | .commitCredential (.use ..) _
  | .snapshot .. | .stash .. | .usePrune _ | .identityApply .. | .healRead (.again _)
  | .healRead (.swap ..) | .healWrite (.again _) _ | .healWrite (.swap ..) _ | .storeLoad ..
  | .healLiveWrite .. => False
  | _ => True

/-- Who is logged in when a command starts, that nobody logs in while it is at work on
the tree, and that the organisation check is answered where it has something to tell,
in a vault that keeps enough backups. -/
def SwapMeets (s : Session) : Event → Prop
  | .start _ command => CommandMeets accountOf s.world command
  | .run p i => Answered accountOf s.world i (s.procs p) ∧ StashStays s.world i (s.procs p)
  | .login identity cred => ∀ p, Admits accountOf (s.after store (.login identity cred)).world
      (s.procs p)
  | .refresh cred => ∀ p, Admits accountOf (s.after store (.refresh cred)).world (s.procs p)
  | .fail _ | .kill _ | .clearLock => True

/-- Nothing that belongs to another account is written into the pair of a label. -/
def KeepsOwners (w w' : World) : Prop :=
  ∀ label a, owner w label = some a →
    (∀ identity, w'.identity.parked label = some identity →
      w.identity.parked label ≠ some identity → identity.account = a) ∧
    ∀ cred, w'.credential.parked label = some cred →
      w.credential.parked label ≠ some cred → credentialAccount accountOf cred = a

variable {accountOf store}

theorem keepsOwners_of_eq {w w' : World} (hidentity : w'.identity.parked = w.identity.parked)
    (hcredential : w'.credential.parked = w.credential.parked) : KeepsOwners accountOf w w' := by
  intro label a _
  refine ⟨fun identity hparked hnew ↦ (hnew ?_).elim, fun cred hparked hnew ↦ (hnew ?_).elim⟩
  · rwa [← hidentity]
  · rwa [← hcredential]

/-- A write that leaves the labels in order writes nothing foreign. -/
theorem keepsOwners_apply {w : World} {e : Effect} (h : OwnedPairs accountOf (w.apply e)) :
    KeepsOwners accountOf w (w.apply e) := by
  cases e with
  | parkIdentity label identity | parkCredential label cred =>
      intro label' a howner
      exact ⟨fun identity' hparked _ ↦ h.identity label' a _ howner hparked,
        fun cred' hparked _ ↦ h.credential label' a _ howner hparked⟩
  | remove label =>
      intro label' a _
      refine ⟨fun identity hparked hnew ↦ ?_, fun cred hparked hnew ↦ ?_⟩
      · by_cases heq : label' = label
        · subst heq
          cases (Slots.forget_self.symm.trans hparked)
        · exact (hnew ((Slots.forget_ne heq).symm.trans hparked)).elim
      · by_cases heq : label' = label
        · subst heq
          cases (Slots.forget_self.symm.trans hparked)
        · exact (hnew ((Slots.forget_ne heq).symm.trans hparked)).elim
  | _ => exact keepsOwners_of_eq rfl rfl

/-- Every command is idle but one. -/
def Alone (s : Session) : Prop := ∃ p, ∀ q, q ≠ p → s.procs q = .idle

/-- What holds in every state of these runs. -/
structure InOrder (accountOf : String → AccountId) (s : Session) : Prop where
  alone : Alone s
  pairs : OwnedPairs accountOf s.world
  own : ∀ p, PcOwn accountOf s.world (s.procs p)
  sees : ∀ p, PcSees accountOf s.world (s.procs p)
  kept : ∀ p, PcKept s.world (s.procs p)

/-- What holds of an idle command holds of all when it holds of the one under way. -/
theorem forall_update {P : Pc → Prop} {procs : ℕ → Pc} {p : ℕ} {pc : Pc} (hidle : P .idle)
    (hothers : ∀ q, q ≠ p → procs q = .idle) (hpc : P pc) :
    ∀ q, P (Function.update procs p pc q) := by
  intro q
  by_cases hq : q = p
  · subst hq
    rwa [Function.update_self]
  · rwa [Function.update_of_ne hq, hothers q hq]

/-- A world, and the command that may be under way. -/
theorem inOrder_update {s : Session} {w : World} {p : ℕ} {pc : Pc} (h : Alone s)
    (hidle : s.procs p = .idle → pc = .idle ∧ w = s.world) (hs : InOrder accountOf s)
    (hpairs : OwnedPairs accountOf w) (hown : PcOwn accountOf w pc)
    (hsees : PcSees accountOf w pc) (hkept : PcKept w pc) :
    InOrder accountOf ⟨w, Function.update s.procs p pc⟩ := by
  by_cases hp : s.procs p = .idle
  · obtain ⟨rfl, rfl⟩ := hidle hp
    rwa [← hp, Function.update_eq_self]
  · obtain ⟨p', hothers⟩ := h
    obtain rfl : p = p' := by
      by_contra hne
      exact hp (hothers p hne)
    exact ⟨⟨p, fun q hq ↦ (Function.update_of_ne hq ..).trans (hothers q hq)⟩, hpairs,
      forall_update (P := PcOwn accountOf w) trivial hothers hown,
      forall_update (P := PcSees accountOf w) trivial hothers hsees,
      forall_update (P := PcKept w) trivial hothers hkept⟩

theorem entry_own {w : World} (command : Command) : PcOwn accountOf w command.entry := by
  cases command <;> exact trivial

theorem entry_sees {w : World} {command : Command} (h : CommandMeets accountOf w command) :
    PcSees accountOf w command.entry := by
  cases command with
  | use u => exact h.2
  | add label => exact h
  | rm label => exact trivial
  | gc keep => exact trivial

theorem entry_kept {w : World} {command : Command} (h : CommandMeets accountOf w command) :
    PcKept w command.entry := by
  cases command with
  | use u => exact h.1
  | add label => exact trivial
  | rm label => exact trivial
  | gc keep => exact trivial

theorem OwnedPairs.of_parked {w w' : World} (h : OwnedPairs accountOf w)
    (hidentity : w'.identity.parked = w.identity.parked)
    (hcredential : w'.credential.parked = w.credential.parked)
    (hregistry : w'.registry = w.registry) : OwnedPairs accountOf w' := by
  have howner : owner w' = owner w := by
    funext label
    rw [owner, owner, hregistry]
  refine ⟨fun label a identity ha hparked ↦ ?_, fun label a cred ha hparked ↦ ?_⟩
  · rw [howner] at ha
    rw [hidentity] at hparked
    exact h.identity label a identity ha hparked
  · rw [howner] at ha
    rw [hcredential] at hparked
    exact h.credential label a cred ha hparked

/-- What a command has parked does not depend on the tree. -/
theorem PcOwn.of_parked {w w' : World} {pc : Pc} (h : PcOwn accountOf w pc)
    (hidentity : w'.identity.parked = w.identity.parked)
    (hcredential : w'.credential.parked = w.credential.parked)
    (hregistry : w'.registry = w.registry) : PcOwn accountOf w' pc := by
  have howner : owner w' = owner w := by
    funext label
    rw [owner, owner, hregistry]
  have hpair : ∀ label a, PairOf accountOf w label a → PairOf accountOf w' label a := by
    rintro label a ⟨hid, hcred⟩
    refine ⟨?_, ?_⟩
    · rwa [hidentity]
    · rwa [hcredential]
  unfold PcOwn at h ⊢
  split at h
  · rwa [Fits, howner]
  · rwa [howner, hidentity]
  · obtain ⟨identity, hparked, hpairOf⟩ := h
    exact ⟨identity, by rwa [hidentity], hpair _ _ hpairOf⟩
  · exact hpair _ _ h
  · rw [howner]
    exact ⟨h.1, fun label row hg ↦ ⟨hpair _ _ (h.2 label row hg).1, (h.2 label row hg).2⟩⟩
  · exact hpair _ _ h
  · exact trivial

/-- A login that is admitted leaves a command what it knows of the registry, and gives it
what it needs of the tree. -/
theorem Admits.sees {w w' : World} {pc : Pc} (h : Admits accountOf w' pc)
    (hregistry : w'.registry = w.registry) (hsees : PcSees accountOf w pc) :
    PcSees accountOf w' pc := by
  cases pc with
  | useCheck u | useActive u => exact h.2
  | useStore u =>
      rw [PcSees, hregistry]
      exact hsees
  | useRunning _ active healOnly | useLock _ active healOnly | useTree _ active healOnly =>
      cases healOnly with
      | true => exact trivial
      | false =>
          have hactive : active = w'.registry.active := by
            rw [hregistry]
            exact hsees.1
          exact ⟨hactive, fun label hlabel ↦ h label (hactive.symm.trans hlabel)⟩
  | extract j =>
      cases j with
      | add label => exact ⟨h, by rintro _ _ ⟨⟩⟩
      | use u active =>
          have hactive : w'.registry.active = some active := by
            rw [hregistry]
            exact hsees.2 u active rfl
          refine ⟨h active hactive, ?_⟩
          rintro _ _ ⟨⟩
          exact hactive
  | addCheck label | addLock label => exact h
  | save | verify | stash => exact h.elim
  | _ => exact trivial

theorem Admits.kept {w : World} {pc : Pc} (h : Admits accountOf w pc) : PcKept w pc := by
  cases pc with
  | useCheck u | useActive u => exact h.1
  | useStore u => exact h
  | useRunning _ _ healOnly | useLock _ _ healOnly | useTree _ _ healOnly =>
      cases healOnly with
      | true => exact h.elim
      | false => exact trivial
  | verify j _ _ => exact h.elim
  | commitIdentity j _ _ | commitCredential j _ =>
      cases j with
      | use u active => exact h.elim
      | add label => exact trivial
  | healRead g | healWrite g _ =>
      cases g with
      | adopt label row => exact trivial
      | _ => exact h.elim
  | useCompare | reload | snapshot | stash | usePrune | identityApply | storeLoad | healLiveWrite =>
      exact h.elim
  | _ => exact trivial

/-- A login or a refresh changes the live pair alone. -/
theorem InOrder.of_tree {s : Session} (h : InOrder accountOf s) {w : World}
    (hidentity : w.identity.parked = s.world.identity.parked)
    (hcredential : w.credential.parked = s.world.credential.parked)
    (hregistry : w.registry = s.world.registry)
    (hadmits : ∀ p, Admits accountOf w (s.procs p)) :
    InOrder accountOf { s with world := w } where
  alone := h.alone
  pairs := h.pairs.of_parked hidentity hcredential hregistry
  own := fun p ↦ (h.own p).of_parked hidentity hcredential hregistry
  sees := fun p ↦ (hadmits p).sees hregistry (h.sees p)
  kept := fun p ↦ (hadmits p).kept

theorem idle_next {i : Inputs} {w : World} {pc : Pc} (h : pc = .idle) :
    (pc.next store i w).2 = .idle ∧ w.apply (pc.next store i w).1 = w := by
  subst h
  exact ⟨rfl, rfl⟩

/-- One event of a sequential run keeps everything in order, and so does what a
command writes. -/
theorem inOrder_after {s : Session} {e : Event} (h : InOrder accountOf s)
    (hpossible : Possible accountOf s e)
    (hsequential : ∀ p command, e = .start p command → ∀ q, s.procs q = .idle)
    (hmeets : SwapMeets accountOf store s e) :
    InOrder accountOf (s.after store e) ∧
      ∀ p i, e = .run p i → KeepsOwners accountOf s.world (s.after store e).world ∧
        KeepsLogin s.world (s.after store e).world := by
  cases e with
  | start p command =>
      have hothers : ∀ q, q ≠ p → s.procs q = .idle := fun q _ ↦ hsequential p command rfl q
      refine ⟨⟨⟨p, fun q hq ↦ (Function.update_of_ne hq ..).trans (hothers q hq)⟩, h.pairs, ?_, ?_,
        ?_⟩, (by simp)⟩
      · exact forall_update (P := PcOwn accountOf s.world) trivial hothers (entry_own command)
      · exact forall_update (P := PcSees accountOf s.world) trivial hothers (entry_sees hmeets)
      · exact forall_update (P := PcKept s.world) trivial hothers (entry_kept hmeets)
  | run p i =>
      have hfits := (h.sees p).captureFits hmeets.1 hpossible
      obtain ⟨hpairs, hown⟩ := own_next store h.pairs (h.own p) hfits
      obtain ⟨hlogin, hkept⟩ := kept_next accountOf store i (h.kept p) (h.sees p) hmeets.2
      refine ⟨inOrder_update h.alone idle_next h hpairs hown (sees_next store i (h.sees p)) hkept, ?_⟩
      rintro _ _ ⟨⟩
      exact ⟨keepsOwners_apply hpairs, hlogin⟩
  | fail p =>
      refine ⟨inOrder_update h.alone (fun hp ↦ ?_) h h.pairs ?_ ?_ ?_, (by simp)⟩
      · rw [hp]
        exact ⟨rfl, rfl⟩
      · split <;> exact trivial
      · split <;> exact trivial
      · split <;> exact trivial
  | kill p =>
      exact ⟨inOrder_update h.alone (fun _ ↦ ⟨rfl, rfl⟩) h h.pairs trivial trivial trivial, (by simp)⟩
  | clearLock =>
      refine ⟨⟨h.alone, h.pairs.of_parked rfl rfl rfl, fun p ↦ (h.own p).of_parked rfl rfl rfl,
        fun p ↦ ?_, fun p ↦ ?_⟩, (by simp)⟩
      · have hsees := h.sees p
        unfold PcSees at hsees ⊢
        exact hsees
      · have hkept := h.kept p
        unfold PcKept at hkept ⊢
        exact hkept
  | login identity cred => exact ⟨h.of_tree rfl rfl rfl hmeets, (by simp)⟩
  | refresh cred => exact ⟨h.of_tree rfl rfl rfl hmeets, (by simp)⟩

theorem inOrder_of_reaches {s : Session}
    (h : (sequential accountOf store).Reaches (SwapMeets accountOf store) s) :
    InOrder accountOf s := by
  refine h.invariant ?_ ?_
  · rintro s ⟨hpairs, hidle⟩
    refine ⟨⟨0, fun q _ ↦ hidle q⟩, hpairs, fun p ↦ ?_, fun p ↦ ?_, fun p ↦ ?_⟩
    all_goals
      rw [hidle p]
      exact trivial
  · rintro s e _ hs hmeets ⟨hpossible, hsequential, rfl⟩
    exact (inOrder_after hs hpossible hsequential hmeets).1

/-- In every run of commands one after the other whose steps all meet the
condition, no step of a command writes anything foreign under a label, and none
replaces a credential that only the tree holds. -/
theorem vault_keeps_accounts {s s' : Session} {p : ℕ} {i : Inputs}
    (h : (sequential accountOf store).Reaches (SwapMeets accountOf store) s)
    (hmeets : SwapMeets accountOf store s (.run p i))
    (hnext : (sequential accountOf store).next s (.run p i) s') :
    KeepsOwners accountOf s.world s'.world ∧ KeepsLogin s.world s'.world := by
  obtain ⟨hpossible, hsequential, rfl⟩ := hnext
  exact (inOrder_after (inOrder_of_reaches h) hpossible hsequential hmeets).2 p i rfl

/-- A command runs alone for some steps, all of which meet the condition. -/
theorem reaches_turns {meets : Session → Event → Prop} {i : Inputs} {st : World × Pc} {n : ℕ}
    (h : (sequential accountOf store).Reaches meets (solo st)) (horg : i.org = none)
    (hmeets : ∀ k < n, meets (solo (turns store i k st)) (.run 0 i)) :
    (sequential accountOf store).Reaches meets (solo (turns store i n st)) := by
  induction n with
  | zero => exact h
  | succ n ih =>
      refine (ih fun k hk ↦ hmeets k (by omega)).snoc (hmeets n (by omega)) ?_
      exact ⟨fun _ _ _ _ ↦ .inl horg, (by simp), by rw [solo_run, turns_succ]⟩

/-- A command starts where none is under way. -/
theorem reaches_start {meets : Session → Event → Prop} {w : World} {command : Command}
    (h : (sequential accountOf store).Reaches meets (solo (w, .idle)))
    (hmeets : meets (solo (w, .idle)) (.start 0 command)) :
    (sequential accountOf store).Reaches meets (solo (w, command.entry)) := by
  refine h.snoc hmeets ⟨solo_procs, fun _ _ _ q ↦ ?_, solo_start.symm⟩
  by_cases hq : q = 0
  · rw [hq, solo_procs]
  · exact solo_procs_ne hq

end

/-! ## Three accounts -/

/-- Every token is the name of its account. -/
def tokenAccount (token : String) : AccountId := ⟨token, token⟩

def identityOf (name : String) : Identity :=
  ⟨name, ⟨name, name, name, "claude_max", name, "", ""⟩, []⟩

def credentialOf (token : String) : Credential := ⟨token, token, some "max", none⟩

/-- Nothing answers the organisation check. -/
def quiet : Inputs := ⟨false, none, "1700000000"⟩

/-- `ada` and `bob` are adopted, `bob` is active, and `eve` has logged in. -/
def visited : World where
  identity := ((⟨some (identityOf "eve"), fun _ ↦ none⟩ : Slots String Identity).park "work"
    (identityOf "ada")).park "home" (identityOf "bob")
  credential := ((⟨some (credentialOf "eve"), fun _ ↦ none⟩ : Slots String Credential).park "work"
    (credentialOf "ada")).park "home" (credentialOf "bob")
  registry := ((⟨none, fun _ ↦ none⟩ : Registry).upsert "work" (info (identityOf "ada"))).upsert
    "home" (info (identityOf "bob"))
  backups := []
  locked := false

/-- A label that is adopted for the account of a pair. -/
theorem OwnedPairs.adopted {w : World} (h : OwnedPairs tokenAccount w) (label name : String)
    (hnew : owner w label = none) :
    OwnedPairs tokenAccount (((w.apply (.parkIdentity label (identityOf name))).apply
      (.parkCredential label (credentialOf name))).apply (.upsert label (info (identityOf name)))) := by
  have hidentity : OwnedPairs tokenAccount (w.apply (.parkIdentity label (identityOf name))) :=
    h.parkIdentity fun a ha ↦ by cases hnew.symm.trans ha
  have hcredential : OwnedPairs tokenAccount ((w.apply (.parkIdentity label
      (identityOf name))).apply (.parkCredential label (credentialOf name))) :=
    hidentity.parkCredential fun a ha ↦ by cases hnew.symm.trans ha
  refine hcredential.upsert ⟨fun identity hparked ↦ ?_, fun cred hparked ↦ ?_⟩
  · rw [← Option.some.inj (Slots.park_self.symm.trans hparked)]
    rfl
  · rw [← Option.some.inj (Slots.park_self.symm.trans hparked)]
    rfl

theorem visited_owned : OwnedPairs tokenAccount visited := by
  have hempty : OwnedPairs tokenAccount
      ⟨⟨some (identityOf "eve"), fun _ ↦ none⟩, ⟨some (credentialOf "eve"), fun _ ↦ none⟩,
        ⟨none, fun _ ↦ none⟩, [], false⟩ :=
    ⟨fun _ _ _ _ h ↦ (nomatch h), fun _ _ _ _ h ↦ (nomatch h)⟩
  exact (hempty.adopted "work" "ada" rfl).adopted "home" "bob" rfl

theorem visited_reached {meets : Session → Event → Prop} :
    (sequential tokenAccount .file).Reaches meets (solo (visited, .idle)) := by
  refine .of_start ⟨visited_owned, fun p ↦ ?_⟩
  by_cases hp : p = 0
  · rw [hp, solo_procs]
  · exact solo_procs_ne hp

/-- The parked credentials of `visited`. -/
theorem visited_parked {label : String} {cred : Credential}
    (h : visited.credential.parked label = some cred) :
    cred = credentialOf "bob" ∨ cred = credentialOf "ada" := by
  by_cases hhome : label = "home"
  · subst hhome
    exact .inl (Option.some.inj h).symm
  · by_cases hwork : label = "work"
    · subst hwork
      exact .inr (Option.some.inj h).symm
    · have hnone : visited.credential.parked label = none :=
        (Slots.park_ne hhome).trans (Slots.park_ne hwork)
      cases hnone.symm.trans h

/-- The first step of `use label`. -/
def useEntry (label : String) : Pc := (Command.use ⟨label, false, some 3⟩).entry

/-- From `eve`'s login, `use work` parks her pair under `home`, which is `bob`'s;
and `use home` replaces her credential, of which there is no copy. -/
theorem visitor_misplaced :
    (∃ s s', (sequential tokenAccount .file).Reaches (fun _ _ ↦ True) s ∧
      (sequential tokenAccount .file).next s (.run 0 quiet) s' ∧
        ¬ KeepsOwners tokenAccount s.world s'.world) ∧
    ∃ s s', (sequential tokenAccount .file).Reaches (fun _ _ ↦ True) s ∧
      (sequential tokenAccount .file).next s (.run 0 quiet) s' ∧
        ¬ KeepsLogin s.world s'.world := by
  have hruns : ∀ label n, (sequential tokenAccount .file).Reaches (fun _ _ ↦ True)
      (solo (turns .file quiet n (visited, useEntry label))) :=
    fun label n ↦ reaches_turns (i := quiet) (reaches_start visited_reached trivial) rfl
      fun _ _ ↦ trivial
  have hnext : ∀ st, (sequential tokenAccount .file).next (solo st) (.run 0 quiet)
      (solo (turn .file quiet st)) :=
    fun st ↦ ⟨fun _ _ _ _ ↦ .inl rfl, (by simp), solo_run.symm⟩
  refine ⟨⟨_, _, hruns "work" 8, hnext _, fun hkeeps ↦ ?_⟩, ⟨_, _, hruns "home" 9, hnext _,
    fun hkeeps ↦ ?_⟩⟩
  · have howner := (hkeeps "home" ⟨"bob", "bob"⟩ rfl).1 (identityOf "eve") rfl
      (by decide +kernel)
    exact absurd howner (by decide +kernel)
  · rcases hkeeps (credentialOf "eve") rfl with ⟨cred, hlive, hpayload⟩ | hstored
    · obtain rfl : credentialOf "bob" = cred := Option.some.inj hlive
      exact absurd hpayload (by decide +kernel)
    · rcases hstored with ⟨label, cred, hparked, hpayload⟩ | ⟨b, hb, _⟩
      · rcases visited_parked hparked with rfl | rfl
        · exact absurd hpayload (by decide +kernel)
        · exact absurd hpayload (by decide +kernel)
      · cases hb

/-- `eve` adopts her login as `away`. -/
theorem adopted_keeps :
    ∃ s s', (sequential tokenAccount .file).Reaches (SwapMeets tokenAccount .file) s ∧
      (sequential tokenAccount .file).next s (.run 0 quiet) s' ∧
        s'.world.credential.parked "away" = some (credentialOf "eve") ∧
          KeepsOwners tokenAccount s.world s'.world ∧ KeepsLogin s.world s'.world := by
  let st := turns .file quiet 6 (visited, (Command.add "away").entry)
  -- `eve` is logged in, and `away` is new
  have htree : TreeIs tokenAccount visited "away" := by
    refine ⟨⟨"eve", "eve"⟩, fun identity cred hidentity hcred ↦ ?_, fun b hb ↦ nomatch hb⟩
    obtain rfl : identityOf "eve" = identity := Option.some.inj hidentity
    obtain rfl : credentialOf "eve" = cred := Option.some.inj hcred
    exact ⟨rfl, rfl⟩
  have hmeets : ∀ k < 7, SwapMeets tokenAccount .file
      (solo (turns .file quiet k (visited, (Command.add "away").entry))) (.run 0 quiet) := by
    intro k hk
    rcases eq_or_ne k 4 with rfl | hne
    · exact ⟨fun htorn ↦ (htree.not_torn htorn).elim, trivial⟩
    · interval_cases k
      all_goals first
        | exact absurd rfl hne
        | exact ⟨trivial, trivial⟩
  have hreaches : (sequential tokenAccount .file).Reaches (SwapMeets tokenAccount .file) (solo st) :=
    reaches_turns (i := quiet) (reaches_start visited_reached (.inr htree)) rfl
      fun k hk ↦ hmeets k (by omega)
  have hnext : (sequential tokenAccount .file).next (solo st) (.run 0 quiet)
      (solo (turn .file quiet st)) :=
    ⟨fun _ _ _ _ ↦ .inl rfl, (by simp), solo_run.symm⟩
  exact ⟨solo st, _, hreaches, hnext, rfl,
    vault_keeps_accounts hreaches (hmeets 6 (by omega)) hnext⟩

end RemoteDevbox.Account
