import RemoteDevbox.Lib.Runs
import Mathlib.Data.List.Basic
import Mathlib.Tactic.Common

namespace RemoteDevbox.Client.AppLinks

/-!
# Linking the configuration of an application

It stands at one path on the client and at one on the box. Linking puts what one side has
into the sync disk and links both paths there; what stood at a path is set aside.
-/

/-- What stands at a path. -/
inductive Node (γ : Type) where
  | absent
  | real (content : γ)
  /-- The link to the payload in the sync disk. -/
  | ours
  | foreign (target : String)

/-- One machine: the path, its renamed predecessors by their stamps, and the payload in the
copy of the sync disk there. -/
structure Side (γ : Type) where
  path : Node γ
  aside : List (String × Node γ)
  payload : Option γ

structure World (γ : Type) where
  client : Side γ
  box : Side γ
  /-- The renamed predecessors of the payload on the box. -/
  payloadAside : List (String × γ)

/-- How the entry is copied. -/
structure Mode (γ : Type) where
  dir : Bool
  isEmpty : γ → Bool
  /-- An empty directory, or an empty file. -/
  blank : γ
  /-- What `cpSync` leaves of a payload and what is copied over it. -/
  copied : Option γ → γ → Option γ
  /-- What `cp -a` does. -/
  boxCopied : Option γ → γ → Option γ

/-- A single file: an excluded one is not copied on the client. -/
def fileMode {γ : Type} (isEmpty : γ → Bool) (blank : γ) (excluded : Bool) : Mode γ where
  dir := false
  isEmpty := isEmpty
  blank := blank
  copied payload content := if excluded then payload else some content
  boxCopied _ content := some content

/-! ## Planning -/

inductive SideKind where
  | absent
  | empty
  | content
  | linked
  | foreignLink
deriving DecidableEq

inductive Decision where
  | alreadyLinked
  | seedEmpty
  | useClient
  | useBox
  | ask
  | refuse
deriving DecidableEq

def SideKind.bare (kind : SideKind) : Bool := kind == .absent || kind == .empty || kind == .linked

inductive Answer where
  | client
  | box
  | skip

section Acting

variable {γ : Type} (mode : Mode γ)

def Side.setAside (stamp : String) (s : Side γ) : Side γ :=
  ⟨.absent, (stamp, s.path) :: s.aside.filter (·.1 ≠ stamp), s.payload⟩

def Side.put (node : Node γ) (s : Side γ) : Side γ := { s with path := node }

def Side.store (payload : Option γ) (s : Side γ) : Side γ := { s with payload := payload }

/-- `mkdir -p` of what the link leads to. -/
def Side.mkdir (s : Side γ) : Side γ :=
  if mode.dir then s.store (some (s.payload.getD mode.blank)) else s

inductive Call where
  | seedFromClient (stamp : String)
  | seedEmpty
  | linkClient (stamp : String)
  | unlinkClient
  | boxSeed (stamp : String)
  | boxLink (stamp : String)
  | boxUnlink
  | boxEnsure (stamp : String)
  | pullPayloadToClient
  | pushPayloadToBox (stamp : String) (allowOverwrite : Bool)

def World.onClient (f : Side γ → Side γ) (w : World γ) : World γ := { w with client := f w.client }

def World.onBox (f : Side γ → Side γ) (w : World γ) : World γ := { w with box := f w.box }

/-- The payload on the box becomes a predecessor. -/
def World.setPayloadAside (stamp : String) (content : γ) (w : World γ) : World γ :=
  { w.onBox (Side.store none) with
    payloadAside := (stamp, content) :: w.payloadAside.filter (·.1 ≠ stamp) }

def boxPayloadHasContent (w : World γ) : Bool :=
  match w.box.payload with
  | some content => !mode.isEmpty content
  | none => false

/-- What a seed does on its side, file by file operation. -/
def seedSteps (copied : Option γ → γ → Option γ) (stamp : String) (s : Side γ) :
    List (Side γ → Side γ) :=
  match s.path with
  | .real content => [Side.store (copied s.payload content), Side.setAside stamp]
  | _ => []

def linkClientSteps (stamp : String) (s : Side γ) : List (Side γ → Side γ) :=
  match s.path with
  | .ours => []
  | .absent => [Side.mkdir mode, Side.put .ours]
  | _ => [Side.setAside stamp, Side.mkdir mode, Side.put .ours]

def boxLinkSteps (stamp : String) (s : Side γ) : List (Side γ → Side γ) :=
  match s.path with
  | .ours => [Side.mkdir mode]
  | .absent => [Side.mkdir mode, Side.put .ours]
  | _ => [Side.mkdir mode, Side.setAside stamp, Side.put .ours]

/-- The link goes before the files come. -/
def restoreSteps (s : Side γ) : List (Side γ → Side γ) :=
  match s.payload with
  | some content => [Side.put .absent, Side.put (.real content)]
  | none => []

def Call.steps (w : World γ) : Call → List (World γ → World γ)
  | .seedFromClient stamp => (seedSteps mode.copied stamp w.client).map World.onClient
  | .seedEmpty =>
      if mode.dir then [World.onClient (Side.mkdir mode)]
      else if boxPayloadHasContent mode w then []
      else [World.onClient (Side.store (some mode.blank))]
  | .linkClient stamp => (linkClientSteps mode stamp w.client).map World.onClient
  | .unlinkClient =>
      match w.client.path with
      | .ours => (restoreSteps w.client).map World.onClient
      | _ => []
  | .boxSeed stamp => (seedSteps mode.boxCopied stamp w.box).map World.onBox
  | .boxLink stamp => (boxLinkSteps mode stamp w.box).map World.onBox
  | .boxUnlink =>
      match w.box.path with
      | .ours | .foreign _ => (restoreSteps w.box).map World.onBox
      | _ => []
  | .boxEnsure stamp =>
      match w.box.path with
      | .absent =>
          if mode.dir && w.box.payload.isNone then []
          else (boxLinkSteps mode stamp w.box).map World.onBox
      | _ => []
  | .pullPayloadToClient =>
      if mode.dir || w.box.payload.isNone then []
      else [World.onClient (Side.store w.box.payload)]
  | .pushPayloadToBox stamp allowOverwrite =>
      if mode.dir then []
      else
        match boxPayloadHasContent mode w, w.box.payload with
        | true, some content =>
            if allowOverwrite then
              World.setPayloadAside stamp content ::
                (w.client.payload.toList.map fun c ↦ World.onBox (Side.store (some c)))
            else []
        | _, _ => w.client.payload.toList.map fun c ↦ World.onBox (Side.store (some c))

/-- The call, cut short after some of its file operations. -/
def Call.run (n : ℕ) (call : Call) (w : World γ) : World γ :=
  ((call.steps mode w).take n).foldl (fun w step ↦ step w) w

end Acting

/-! ## Nothing that stands at a path is lost -/

section Runs

variable {γ : Type}

/-- Calls, each of which may be cut short, and what users, applications and the sync engine
do in between. -/
inductive Event (γ : Type) where
  | call (call : Call) (n : ℕ)
  | clientPath (node : Node γ)
  | boxPath (node : Node γ)
  | clientPayload (payload : Option γ)
  | boxPayload (payload : Option γ)

def Next (mode : Mode γ) (w : World γ) : Event γ → World γ → Prop
  | .call call n, w' => w' = call.run mode n w
  | .clientPath node, w' => w' = w.onClient (Side.put node)
  | .boxPath node, w' => w' = w.onBox (Side.put node)
  | .clientPayload payload, w' => w' = w.onClient (Side.store payload)
  | .boxPayload payload, w' => w' = w.onBox (Side.store payload)

def links (mode : Mode γ) : System (World γ) (Event γ) where
  start _ := True
  next := Next mode

/-- A stamp that no name there carries yet. -/
def Unused (stamp : String) (s : Side γ) : Prop := ∀ node, (stamp, node) ∉ s.aside

/-- A stamp to rename by what stands at the path, if anything does. -/
def Free (stamp : String) (s : Side γ) : Prop := s.path = .absent ∨ Unused stamp s

def Call.Fresh (w : World γ) : Call → Prop
  | .seedFromClient stamp | .linkClient stamp => Free stamp w.client
  | .boxSeed stamp | .boxLink stamp | .boxEnsure stamp => Free stamp w.box
  | _ => True

/-- Every rename gets a name of its own. -/
def Fresh (w : World γ) : Event γ → Prop
  | .call call _ => call.Fresh w
  | _ => True

/-- No one else changes what stands at the paths. -/
def Untouched (w : World γ) (e : Event γ) : Prop :=
  Fresh w e ∧ (∀ node, e ≠ .clientPath node) ∧ ∀ node, e ≠ .boxPath node

/-- The content stands at the path, or it has been set aside. -/
def Side.Keeps (s : Side γ) (content : γ) : Prop :=
  s.path = .real content ∨ ∃ stamp, (stamp, .real content) ∈ s.aside

/-- What one side has is kept on the other state of it: the predecessors, and what stands
at the path. -/
structure Side.Preserves (s s' : Side γ) : Prop where
  aside : ∀ p ∈ s.aside, p ∈ s'.aside
  path : ∀ content, s.path = .real content → s'.Keeps content

section Steps

variable {mode : Mode γ} {stamp : String} {s s' s'' : Side γ}

theorem Side.Preserves.refl (s : Side γ) : s.Preserves s := ⟨fun _ h ↦ h, fun _ h ↦ .inl h⟩

theorem Side.Preserves.keeps (h : s.Preserves s') {content : γ} (hs : s.Keeps content) :
    s'.Keeps content := by
  rcases hs with hpath | ⟨stamp, hmem⟩
  · exact h.path content hpath
  · exact .inr ⟨stamp, h.aside _ hmem⟩

theorem Side.Preserves.trans (h : s.Preserves s') (h' : s'.Preserves s'') : s.Preserves s'' :=
  ⟨fun p hp ↦ h'.aside p (h.aside p hp), fun content hc ↦ h'.keeps (h.path content hc)⟩

theorem preserves_store (payload : Option γ) : s.Preserves (s.store payload) :=
  ⟨fun _ h ↦ h, fun _ h ↦ .inl h⟩

theorem preserves_mkdir : s.Preserves (s.mkdir mode) := by
  rw [Side.mkdir]
  split
  · exact preserves_store _
  · exact .refl s

theorem preserves_setAside (h : Unused stamp s) : s.Preserves (s.setAside stamp) := by
  refine ⟨fun p hp ↦ List.mem_cons_of_mem _ (List.mem_filter.mpr ⟨hp, ?_⟩), fun content hc ↦ ?_⟩
  · obtain ⟨stamp', node⟩ := p
    have hne : stamp' ≠ stamp := by
      rintro rfl
      exact h node hp
    exact decide_eq_true hne
  · exact .inr ⟨stamp, List.mem_cons.mpr (.inl (by rw [hc]))⟩

/-- Where no file stands, a path is free for another. -/
theorem preserves_put (node : Node γ) (h : ∀ content, s.path ≠ .real content) :
    s.Preserves (s.put node) :=
  ⟨fun _ hp ↦ hp, fun content hc ↦ absurd hc (h content)⟩

/-- Each of the operations, done one after the other, preserves the side it finds. -/
def Preserving : List (Side γ → Side γ) → Side γ → Prop
  | [], _ => True
  | f :: fs, s => s.Preserves (f s) ∧ Preserving fs (f s)

theorem Preserving.fold {fs : List (Side γ → Side γ)} {s : Side γ} (h : Preserving fs s) (n : ℕ) :
    s.Preserves ((fs.take n).foldl (fun s f ↦ f s) s) := by
  induction fs generalizing n s with
  | nil =>
      rw [List.take_nil]
      exact .refl s
  | cons f fs ih =>
      cases n with
      | zero => exact .refl s
      | succ n => exact h.1.trans (ih h.2 n)

theorem Free.unused (h : Free stamp s) (hpath : s.path ≠ .absent) : Unused stamp s :=
  h.resolve_left hpath

theorem preserving_seed (copied : Option γ → γ → Option γ) (h : Free stamp s) :
    Preserving (seedSteps copied stamp s) s := by
  rw [seedSteps]
  split
  next content hpath =>
    have hunused : Unused stamp s := by
      refine h.unused ?_
      rw [hpath]
      nofun
    exact ⟨preserves_store _, preserves_setAside hunused, trivial⟩
  next => trivial

theorem setAside_path (content : γ) : (s.setAside stamp).path ≠ .real content := by
  intro hpath
  cases hpath

theorem mkdir_path : (s.mkdir mode).path = s.path := by
  rw [Side.mkdir]
  split <;> rfl

theorem mkdir_aside : (s.mkdir mode).aside = s.aside := by
  rw [Side.mkdir]
  split <;> rfl

theorem preserving_linkClient (h : Free stamp s) :
    Preserving (linkClientSteps mode stamp s) s := by
  rw [linkClientSteps]
  split
  next => trivial
  next hpath =>
    refine ⟨preserves_mkdir, preserves_put _ fun content ↦ ?_, trivial⟩
    rw [mkdir_path, hpath]
    nofun
  next _ hpath =>
    refine ⟨preserves_setAside (h.unused hpath), preserves_mkdir,
      preserves_put _ fun content ↦ ?_, trivial⟩
    rw [mkdir_path]
    exact setAside_path content

theorem preserving_boxLink (h : Free stamp s) :
    Preserving (boxLinkSteps mode stamp s) s := by
  rw [boxLinkSteps]
  split
  next => exact ⟨preserves_mkdir, trivial⟩
  next hpath =>
    refine ⟨preserves_mkdir, preserves_put _ fun content ↦ ?_, trivial⟩
    rw [mkdir_path, hpath]
    nofun
  next _ hpath =>
    have hmkdir : Unused stamp (s.mkdir mode) := by
      intro node hmem
      rw [mkdir_aside] at hmem
      exact h.unused hpath node hmem
    exact ⟨preserves_mkdir, preserves_setAside hmkdir, preserves_put _ setAside_path, trivial⟩

/-- The link goes, and nothing stands there before the files come. -/
theorem preserving_restore (h : ∀ content, s.path ≠ .real content) :
    Preserving (restoreSteps s) s := by
  rw [restoreSteps]
  split
  · exact ⟨preserves_put _ h, preserves_put _ nofun, trivial⟩
  · trivial

end Steps

section Calls

variable {mode : Mode γ} {w w' : World γ}

/-- Both machines keep what they have. -/
def World.Preserves (w w' : World γ) : Prop :=
  w.client.Preserves w'.client ∧ w.box.Preserves w'.box

theorem World.Preserves.refl (w : World γ) : w.Preserves w := ⟨.refl _, .refl _⟩

theorem World.Preserves.trans {w'' : World γ} (h : w.Preserves w') (h' : w'.Preserves w'') :
    w.Preserves w'' :=
  ⟨h.1.trans h'.1, h.2.trans h'.2⟩

/-- Operations on one side are one operation on it. -/
theorem foldl_lift (lift : (Side γ → Side γ) → World γ → World γ) (hid : ∀ w, lift id w = w)
    (hcomp : ∀ f g w, lift g (lift f w) = lift (g ∘ f) w) (fs : List (Side γ → Side γ))
    (w : World γ) : (fs.map lift).foldl (fun w step ↦ step w) w =
      lift (fun s ↦ fs.foldl (fun s f ↦ f s) s) w := by
  induction fs generalizing w with
  | nil => exact (hid w).symm
  | cons f fs ih =>
      calc (fs.map lift).foldl (fun w step ↦ step w) (lift f w)
        _ = lift (fun s ↦ fs.foldl (fun s f ↦ f s) s) (lift f w) := ih _
        _ = lift (fun s ↦ (f :: fs).foldl (fun s f ↦ f s) s) w := hcomp _ _ w

theorem preserves_client {fs : List (Side γ → Side γ)} (h : Preserving fs w.client) (n : ℕ) :
    w.Preserves (((fs.map World.onClient).take n).foldl (fun w step ↦ step w) w) := by
  rw [← List.map_take, foldl_lift _ (fun _ ↦ rfl) fun _ _ _ ↦ rfl]
  exact ⟨h.fold n, .refl _⟩

theorem preserves_box {fs : List (Side γ → Side γ)} (h : Preserving fs w.box) (n : ℕ) :
    w.Preserves (((fs.map World.onBox).take n).foldl (fun w step ↦ step w) w) := by
  rw [← List.map_take, foldl_lift _ (fun _ ↦ rfl) fun _ _ _ ↦ rfl]
  exact ⟨.refl _, h.fold n⟩

theorem preserves_steps {steps : List (World γ → World γ)}
    (h : ∀ step ∈ steps, ∀ w : World γ, w.Preserves (step w)) (n : ℕ) :
    w.Preserves ((steps.take n).foldl (fun w step ↦ step w) w) := by
  have htake : ∀ step ∈ steps.take n, ∀ w : World γ, w.Preserves (step w) :=
    fun step hstep ↦ h step (List.mem_of_mem_take hstep)
  revert htake
  generalize steps.take n = done
  intro htake
  induction done generalizing w with
  | nil => exact .refl w
  | cons step done ih =>
      exact (htake step List.mem_cons_self w).trans
        (ih fun step' hstep' ↦ htake step' (List.mem_cons_of_mem _ hstep'))

theorem preserves_clientStore (payload : Option γ) (w : World γ) :
    w.Preserves (w.onClient (Side.store payload)) :=
  ⟨preserves_store payload, .refl _⟩

theorem preserves_boxStore (payload : Option γ) (w : World γ) :
    w.Preserves (w.onBox (Side.store payload)) :=
  ⟨.refl _, preserves_store payload⟩

theorem preserves_pushed (payload : Option γ) :
    ∀ step ∈ payload.toList.map fun c ↦ World.onBox (Side.store (some c)),
      ∀ w : World γ, w.Preserves (step w) := by
  intro step hstep w
  obtain ⟨content, -, rfl⟩ := List.mem_map.mp hstep
  exact preserves_boxStore _ w

/-- A call, wherever it is cut short. -/
theorem run_preserves {call : Call} (h : call.Fresh w) (n : ℕ) :
    w.Preserves (call.run mode n w) := by
  cases call with
  | seedFromClient stamp => exact preserves_client (preserving_seed _ h) n
  | linkClient stamp => exact preserves_client (preserving_linkClient h) n
  | boxSeed stamp => exact preserves_box (preserving_seed _ h) n
  | boxLink stamp => exact preserves_box (preserving_boxLink h) n
  | seedEmpty =>
      refine preserves_steps (fun step hstep w ↦ ?_) n
      rw [Call.steps] at hstep
      split_ifs at hstep
      · rw [List.mem_singleton.mp hstep]
        exact ⟨preserves_mkdir, .refl _⟩
      · cases hstep
      · rw [List.mem_singleton.mp hstep]
        exact preserves_clientStore _ w
  | unlinkClient =>
      rw [Call.run, Call.steps]
      split
      next hpath =>
        refine preserves_client (preserving_restore fun content ↦ ?_) n
        rw [hpath]
        nofun
      · exact preserves_steps (fun _ hstep ↦ absurd hstep List.not_mem_nil) n
  | boxUnlink =>
      rw [Call.run, Call.steps]
      split
      next hpath =>
        refine preserves_box (preserving_restore fun content ↦ ?_) n
        rw [hpath]
        nofun
      next target hpath =>
        refine preserves_box (preserving_restore fun content ↦ ?_) n
        rw [hpath]
        nofun
      · exact preserves_steps (fun _ hstep ↦ absurd hstep List.not_mem_nil) n
  | boxEnsure stamp =>
      rw [Call.run, Call.steps]
      split
      · split_ifs
        · exact preserves_steps (fun _ hstep ↦ absurd hstep List.not_mem_nil) n
        · exact preserves_box (preserving_boxLink h) n
      · exact preserves_steps (fun _ hstep ↦ absurd hstep List.not_mem_nil) n
  | pullPayloadToClient =>
      refine preserves_steps (fun step hstep w ↦ ?_) n
      rw [Call.steps] at hstep
      split_ifs at hstep
      · cases hstep
      · rw [List.mem_singleton.mp hstep]
        exact preserves_clientStore _ w
  | pushPayloadToBox stamp allowOverwrite =>
      refine preserves_steps (fun step hstep w ↦ ?_) n
      rw [Call.steps] at hstep
      split at hstep
      · cases hstep
      split at hstep
      · split at hstep
        · rcases List.mem_cons.mp hstep with rfl | hstep
          · exact preserves_boxStore none w
          · exact preserves_pushed _ step hstep w
        · cases hstep
      · exact preserves_pushed _ step hstep w

theorem next_aside {w w' : World γ} {e : Event γ} (hfresh : Fresh w e) (h : Next mode w e w') :
    w.client.aside ⊆ w'.client.aside ∧ w.box.aside ⊆ w'.box.aside := by
  cases e with
  | call call n =>
      subst h
      have hrun : w.Preserves (call.run mode n w) := run_preserves hfresh n
      exact ⟨hrun.1.aside, hrun.2.aside⟩
  | clientPath | boxPath | clientPayload | boxPayload =>
      subst h
      exact ⟨fun _ hmem ↦ hmem, fun _ hmem ↦ hmem⟩

theorem next_keeps {w w' : World γ} {e : Event γ} (h : Untouched w e) (hnext : Next mode w e w') :
    w.Preserves w' := by
  cases e with
  | call call n =>
      subst hnext
      exact run_preserves h.1 n
  | clientPath node => exact absurd rfl (h.2.1 node)
  | boxPath node => exact absurd rfl (h.2.2 node)
  | clientPayload payload =>
      subst hnext
      exact preserves_clientStore payload w
  | boxPayload payload =>
      subst hnext
      exact preserves_boxStore payload w

end Calls

/-- What a command has set aside stays, and where only commands act on the paths, what
stands there stays at its path or is set aside. -/
theorem displaced_kept {mode : Mode γ} {w w' : World γ} (h : (links mode).Path Fresh w w') :
    (w.client.aside ⊆ w'.client.aside ∧ w.box.aside ⊆ w'.box.aside) ∧
      ((links mode).Path Untouched w w' → ∀ content,
        (w.client.Keeps content → w'.client.Keeps content) ∧
          (w.box.Keeps content → w'.box.Keeps content)) := by
  constructor
  · refine h.preserves (I := fun v ↦ w.client.aside ⊆ v.client.aside ∧ w.box.aside ⊆ v.box.aside)
      (fun s e s' hs hfresh hnext ↦ ?_) ⟨fun _ hmem ↦ hmem, fun _ hmem ↦ hmem⟩
    have hstep := next_aside hfresh hnext
    exact ⟨fun _ hmem ↦ hstep.1 (hs.1 hmem), fun _ hmem ↦ hstep.2 (hs.2 hmem)⟩
  · intro huntouched content
    have hall : w.Preserves w' :=
      huntouched.preserves (I := fun v ↦ w.Preserves v)
        (fun s e s' hs hmeets hnext ↦ hs.trans (next_keeps hmeets hnext)) (.refl w)
    exact ⟨hall.1.keeps, hall.2.keeps⟩

/-- Both machines have settings of their own, and an earlier attempt left a copy behind. -/
def bothSet : World String :=
  ⟨⟨.real "client settings", [], none⟩, ⟨.real "box settings", [("old", .ours)], some "copy"⟩, []⟩

theorem unused_of_all {s : Side String} {stamp : String}
    (h : s.aside.all (·.1 ≠ stamp) = true) : Unused stamp s :=
  fun _ hmem ↦ of_decide_eq_true (List.all_eq_true.mp h _ hmem) rfl

/-- The link breaks off on the box, where the settings are renamed and no link is made. -/
theorem brokenOff_kept : ∃ w : World String,
    (links (fileMode String.isEmpty "" false)).Path Untouched bothSet w ∧
      w.client.path = .ours ∧ w.box.path = .absent ∧
      w.client.Keeps "client settings" ∧ w.box.Keeps "box settings" ∧
      ("old", .ours) ∈ w.box.aside := by
  have hstep : ∀ {w : World String} (call : Call) (n : ℕ), call.Fresh w →
      (links (fileMode String.isEmpty "" false)).Path Untouched bothSet w →
      (links (fileMode String.isEmpty "" false)).Path Untouched bothSet
        (call.run (fileMode String.isEmpty "" false) n w) :=
    fun call n hfresh hpath ↦
      hpath.snoc (e := .call call n) ⟨hfresh, fun _ ↦ nofun, fun _ ↦ nofun⟩ rfl
  have hseeded := hstep (.seedFromClient "now") 2 (.inr (unused_of_all rfl)) .refl
  have hlinked := hstep (.linkClient "now") 2 (.inl rfl) hseeded
  have hbroken := hstep (.boxLink "now") 2 (.inr (unused_of_all rfl)) hlinked
  obtain ⟨⟨-, haside⟩, hkept⟩ := displaced_kept (hbroken.weaken fun _ _ hmeets ↦ hmeets.1)
  exact ⟨_, hbroken, rfl, rfl, (hkept hbroken "client settings").1 (.inl rfl),
    (hkept hbroken "box settings").2 (.inl rfl), haside (List.mem_singleton.mpr rfl)⟩

end Runs

/-! ## What linking a single file comes to -/

section Outcome

variable {γ : Type} {isEmpty : γ → Bool} {blank : γ} {stamp : String} {s : Side γ}

/-- The payloads of the client and of the box once the decision is carried out. -/
def payloads (isEmpty : γ → Bool) (blank : γ) (w : World γ) : Decision → Option γ × Option γ
  | .useClient =>
      match w.client.path with
      | .real content =>
          if isEmpty content then (w.client.payload, w.box.payload)
          else (some content, some content)
      | _ => (w.client.payload, w.box.payload)
  | .useBox =>
      match w.box.path with
      | .real content => (some content, some content)
      | _ => (w.box.payload, w.box.payload)
  | .seedEmpty => (some blank, some blank)
  | _ => (w.client.payload, w.box.payload)

/-- A decision that the command dies on. -/
def Stuck (isEmpty : γ → Bool) (w : World γ) : Decision → Prop
  | .useBox => (∀ content, w.box.path ≠ .real content) ∧ w.box.payload = none
  | .seedEmpty => ∃ content, w.box.payload = some content ∧ isEmpty content = false
  | _ => False

/-- Both paths lead to the payload, and what stood there is kept. -/
structure Linked (w w' : World γ) : Prop where
  client : w'.client.path = .ours
  box : w'.box.path = .ours
  kept : w.Preserves w'

section Calls

variable {w : World γ}

variable {clientStamp boxStamp : String}

/-- What a link comes to that does not die. -/
def Outcome (isEmpty : γ → Bool) (blank : γ) (w : World γ) (d : Decision) (w' : World γ) : Prop :=
  if d = .alreadyLinked ∨ d = .refuse then w' = w
  else Linked w w' ∧ (w'.client.payload, w'.box.payload) = payloads isEmpty blank w d

end Calls

end Outcome

end RemoteDevbox.Client.AppLinks
