import Mathlib.Data.List.Sort
import RemoteDevbox.Lib.Js.Text
import RemoteDevbox.Lib.Slots

namespace RemoteDevbox.Account

/-!
# The vault of Claude accounts

One config tree, and beside it one parked pair of identity and credential for
each label. The tree's pair is live; a registry says which label is active.
-/

/-- An account is a person in an organisation. -/
structure AccountId where
  accountUuid : String
  orgUuid : String
  deriving DecidableEq

/-- `oauthAccount` of `.claude.json`, `""` where a key is missing. -/
structure OauthAccount where
  emailAddress : String
  organizationName : String
  organizationUuid : String
  organizationType : String
  accountUuid : String
  organizationRateLimitTier : String
  userRateLimitTier : String
  deriving DecidableEq

/-- The account-scoped keys of `.claude.json`. -/
structure Identity where
  userID : String
  oauthAccount : OauthAccount
  caches : List (String × String)
  deriving DecidableEq

/-- `claudeAiOauth` of the credential file. -/
structure Credential where
  accessToken : String
  refreshToken : String
  subscriptionType : Option String
  rateLimitTier : Option String
  deriving DecidableEq

/-- What logs in; the rest of a credential describes it. -/
def Credential.payload (c : Credential) : String × String := (c.accessToken, c.refreshToken)

structure Info where
  email : String
  org : String
  orgUuid : String
  orgType : String
  accountUuid : String
  userID : String
  deriving DecidableEq

def info (identity : Identity) : Info where
  email := identity.oauthAccount.emailAddress
  org := identity.oauthAccount.organizationName
  orgUuid := identity.oauthAccount.organizationUuid
  orgType := identity.oauthAccount.organizationType
  accountUuid := identity.oauthAccount.accountUuid
  userID := identity.userID

/-- `info` of a file without an account. -/
def noInfo : Info := ⟨"", "", "", "", "", ""⟩

def Info.account (i : Info) : AccountId := ⟨i.accountUuid, i.orgUuid⟩

def Identity.account (identity : Identity) : AccountId := (info identity).account

def SUBSCRIPTION_FROM_ORG_TYPE : List (String × String) :=
  [("claude_max", "max"), ("claude_pro", "pro"), ("claude_team", "team"),
   ("claude_enterprise", "enterprise")]

/-- `a or b` of two texts, and `none` for the empty one. -/
def nonEmpty (s : String) : Option String := if s = "" then none else some s

/-- `credential-heal` aligns the description of a credential with an identity. -/
def heal (identity : Identity) (cred : Credential) : Credential :=
  let acct := identity.oauthAccount
  let wantSub := SUBSCRIPTION_FROM_ORG_TYPE.lookup acct.organizationType
  let wantTier := (nonEmpty acct.organizationRateLimitTier).or (nonEmpty acct.userRateLimitTier)
  { cred with
    subscriptionType := wantSub.or cred.subscriptionType
    rateLimitTier := wantTier.or cred.rateLimitTier }

theorem heal_payload (identity : Identity) (cred : Credential) :
    (heal identity cred).payload = cred.payload := rfl

theorem heal_accessToken (identity : Identity) (cred : Credential) :
    (heal identity cred).accessToken = cred.accessToken := rfl

/-- A row without an id, or a tree without one, matches everything. -/
def treeMatchesRegistry (tree row : Info) : Bool :=
  !(row.accountUuid != "" && tree.accountUuid != "" && row.accountUuid != tree.accountUuid) &&
    !(row.orgUuid != "" && tree.orgUuid != "" && row.orgUuid != tree.orgUuid)

inductive OrgCheck where
  | same
  | differs
  | unasked
  deriving DecidableEq

/-- `.strip().lower()` -/
def normalOrg (org : String) : String := Js.Text.lower (Js.Text.trim org)

/-- `verify-org`; the answer is the organisation that the token bills, if
anything answers. -/
def verifyOrg (identity : Identity) (cred : Credential) (answer : Option String) : OrgCheck :=
  let want := normalOrg identity.oauthAccount.organizationUuid
  if want = "" then .same
  else if cred.accessToken = "" then .unasked
  else
    match answer.map normalOrg with
    | none => .unasked
    | some got => if got = "" then .unasked else if got = want then .same else .differs

/-! ## The files -/

structure Registry where
  active : Option String
  accounts : String → Option Info

inductive Store where
  | file
  | keychain
  deriving DecidableEq

/-- A copy of a parked pair. -/
structure Backup where
  name : String
  identity : Option Identity
  credential : Option Credential

/-- `identity.live` is the account-scoped part of the state file and
`credential.live` what the store holds; the parked ones are `identity.json` and
`credentials.json` in the directory of a label. -/
structure World where
  identity : Slots String Identity
  credential : Slots String Credential
  registry : Registry
  backups : List Backup
  locked : Bool

/-- The names of the newest backups: `sort -r`, and the first `keep`. -/
def newest (keep : ℕ) (backups : List Backup) : List String :=
  ((backups.map (·.name)).mergeSort fun a b ↦ decide (b ≤ a)).take keep

def prune (keep : ℕ) (backups : List Backup) : List Backup :=
  backups.filter fun b ↦ (newest keep backups).contains b.name

/-- One write of the script. -/
inductive Effect where
  | none
  | lock
  | unlock
  | parkIdentity (label : String) (identity : Identity)
  | parkCredential (label : String) (cred : Credential)
  | backup (b : Backup)
  | prune (keep : ℕ)
  | applyIdentity (identity : Option Identity)
  | loadCredential (cred : Credential)
  | activate (label : String)
  | upsert (label : String) (row : Info)
  | remove (label : String)
  | forget (label : String)

def Registry.activate (reg : Registry) (label : String) : Registry :=
  { reg with active := some label }

def Registry.upsert (reg : Registry) (label : String) (row : Info) : Registry :=
  ⟨some label, Function.update reg.accounts label (some row)⟩

def Registry.forget (reg : Registry) (label : String) : Registry :=
  ⟨if reg.active = some label then none else reg.active,
    Function.update reg.accounts label none⟩

def World.apply (w : World) : Effect → World
  | .none => w
  | .lock => { w with locked := true }
  | .unlock => { w with locked := false }
  | .parkIdentity label identity => { w with identity := w.identity.park label identity }
  | .parkCredential label cred => { w with credential := w.credential.park label cred }
  | .backup b => { w with backups := b :: w.backups.filter (·.name != b.name) }
  | .prune keep => { w with backups := prune keep w.backups }
  | .applyIdentity identity => { w with identity := w.identity.setLive identity }
  | .loadCredential cred => { w with credential := w.credential.setLive (some cred) }
  | .activate label => { w with registry := w.registry.activate label }
  | .upsert label row => { w with registry := w.registry.upsert label row }
  | .remove label =>
      { w with
        identity := w.identity.forget label
        credential := w.credential.forget label }
  | .forget label => { w with registry := w.registry.forget label }

@[simp] theorem apply_none {w : World} : w.apply .none = w := rfl

end RemoteDevbox.Account
