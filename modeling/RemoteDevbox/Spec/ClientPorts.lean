import RemoteDevbox.Spec.Load
import Mathlib.Data.Int.Interval
import Mathlib.Order.Bounds.Basic

namespace RemoteDevbox.Spec

open Js Client

/-!
# The ports a client dials

Ports that the operator states are kept, the other desktops take the lowest
ones left. What a desktop gets is described without the search for it.
-/

/-! ## The search -/

/-- The lowest port from the base on that is not taken. -/
def IsLowest (taken : List Number) (p : ℤ) : Prop :=
  IsLeast {m : ℤ | 3389 ≤ m ∧ Number.ofInt m ∉ taken} p

theorem IsLowest.congr {taken taken' : List Number} {p : ℤ} (h : IsLowest taken p)
    (hmem : ∀ n, n ∈ taken ↔ n ∈ taken') : IsLowest taken' p :=
  ⟨⟨h.1.1, fun hp ↦ h.1.2 ((hmem _).mpr hp)⟩,
    fun _ hm ↦ h.2 ⟨hm.1, fun hn ↦ hm.2 ((hmem _).mp hn)⟩⟩

/-- Ports from `z` on cannot all be taken once there are as many as taken ones. -/
theorem free_of_taken_before {taken : List Number} {z : ℤ}
    (h : ∀ m, z ≤ m → m < z + taken.length → Number.ofInt m ∈ taken) :
    Number.ofInt (z + taken.length) ∉ taken := by
  intro hlast
  have hsub : (Finset.Icc z (z + taken.length)).image Number.ofInt ⊆ taken.toFinset := by
    intro n hn
    obtain ⟨m, hm, rfl⟩ := Finset.mem_image.mp hn
    obtain ⟨hlow, hhigh⟩ := Finset.mem_Icc.mp hm
    rw [List.mem_toFinset]
    rcases lt_or_eq_of_le hhigh with hlt | rfl
    · exact h m hlow hlt
    · exact hlast
  have hcard := (Finset.card_le_card hsub).trans taken.toFinset_card_le
  rw [Finset.card_image_of_injective _ fun a b hab ↦ Number.ofInt_inj.mp hab, Int.card_Icc] at hcard
  omega

theorem lowestFree_spec {taken : List Number} {fuel : ℕ} {z : ℤ} :
    ∃ k : ℕ, lowestFree taken fuel (.ofInt z) = .ofInt (z + k) ∧ k ≤ fuel ∧
      (∀ m, z ≤ m → m < z + k → Number.ofInt m ∈ taken) ∧
      (k < fuel → Number.ofInt (z + k) ∉ taken) := by
  induction fuel generalizing z with
  | zero =>
      refine ⟨0, by simp [lowestFree], le_refl 0, fun m hlow hhigh ↦ ?_, fun h ↦ absurd h (by omega)⟩
      omega
  | succ fuel ih =>
      rw [lowestFree]
      by_cases htaken : Number.ofInt z ∈ taken
      · rw [if_pos (List.contains_iff_mem.mpr htaken), Number.add_ofInt]
        obtain ⟨k, heq, hk, hbefore, hfree⟩ := @ih (z + 1)
        refine ⟨k + 1, ?_, by omega, fun m hlow hhigh ↦ ?_, fun hlt ↦ ?_⟩
        · rw [heq]
          congr 1
          push_cast
          ring
        · rcases eq_or_lt_of_le hlow with rfl | hlt
          · exact htaken
          · exact hbefore m (by omega) (by push_cast at hhigh; omega)
        · have hnext := hfree (by omega)
          rwa [show z + 1 + (k : ℤ) = z + ((k + 1 : ℕ) : ℤ) by push_cast; ring] at hnext
      · rw [if_neg (fun h ↦ htaken (List.contains_iff_mem.mp h))]
        refine ⟨0, by simp, Nat.zero_le _, fun m hlow hhigh ↦ ?_, fun _ ↦ by simpa using htaken⟩
        push_cast at hhigh
        omega

/-- Everything below the candidate is taken. -/
def Full (taken : List Number) (z : ℤ) : Prop :=
  3389 ≤ z ∧ ∀ m, 3389 ≤ m → m < z → Number.ofInt m ∈ taken

theorem lowestFree_isLowest {taken : List Number} {z : ℤ} (h : Full taken z) :
    ∃ p, lowestFree taken taken.length (.ofInt z) = .ofInt p ∧ IsLowest taken p ∧
      Full (.ofInt p :: taken) p := by
  obtain ⟨hbase, hbelow⟩ := h
  obtain ⟨k, heq, hk, hbefore, hfree⟩ := @lowestFree_spec taken taken.length z
  have hnot : Number.ofInt (z + k) ∉ taken := by
    rcases lt_or_eq_of_le hk with hlt | rfl
    · exact hfree hlt
    · exact free_of_taken_before hbefore
  have hall : ∀ m, 3389 ≤ m → m < z + k → Number.ofInt m ∈ taken := by
    intro m hlow hhigh
    by_cases hm : m < z
    · exact hbelow m hlow hm
    · exact hbefore m (by omega) hhigh
  refine ⟨z + k, heq, ⟨⟨by omega, hnot⟩, fun m hm ↦ ?_⟩, by omega, fun m hlow hhigh ↦ ?_⟩
  · by_contra hlt
    exact hm.2 (hall m hm.1 (by omega))
  · exact List.mem_cons_of_mem _ (hall m hlow hhigh)

/-! ## Who gets which port -/

/-- The rows for the desktops, with the ports that are taken before the first. -/
inductive Assigns : List Number → List ClientPortInput → List (Val × Number) → Prop
  | nil {taken : List Number} : Assigns taken [] []
  | stated {taken : List Number} {d : ClientPortInput} {ds : List ClientPortInput}
      {ports : List (Val × Number)} {n : Number} :
      statedPort d = some n → Assigns taken ds ports → Assigns taken (d :: ds) ((d.user, n) :: ports)
  | lowest {taken : List Number} {d : ClientPortInput} {ds : List ClientPortInput}
      {ports : List (Val × Number)} {p : ℤ} :
      statedPort d = none → IsLowest taken p → Assigns (.ofInt p :: taken) ds ports →
      Assigns taken (d :: ds) ((d.user, .ofInt p) :: ports)

section Rows

variable {taken : List Number} {next : Number} {d : ClientPortInput}
  {ds devs : List ClientPortInput} {ports : List (Val × Number)}

theorem assignFrom_stated {n : Number} (h : statedPort d = some n) :
    assignFrom taken next (d :: ds) = (d.user, n) :: assignFrom taken next ds := by
  unfold statedPort at h
  rw [assignFrom]
  split at h
  · rename_i m hm
    split at h
    · rename_i htruthy
      obtain rfl := Option.some.inj h
      exact if_pos htruthy
    · cases h
  · cases h

theorem assignFrom_lowest (h : statedPort d = none) :
    assignFrom taken next (d :: ds) =
      (d.user, lowestFree taken taken.length next) ::
        assignFrom (lowestFree taken taken.length next :: taken)
          (lowestFree taken taken.length next) ds := by
  unfold statedPort at h
  rw [assignFrom]
  split at h
  · rename_i m hm
    split at h
    · cases h
    · rename_i hfalsy
      exact if_neg hfalsy
  · rfl

theorem assigns_assignFrom {z : ℤ} (h : Full taken z) :
    Assigns taken ds (assignFrom taken (.ofInt z) ds) := by
  induction ds generalizing taken z with
  | nil => exact .nil
  | cons d ds ih =>
      cases hstated : statedPort d with
      | some n =>
          rw [assignFrom_stated hstated]
          exact .stated hstated (ih h)
      | none =>
          obtain ⟨p, heq, hlowest, hfull⟩ := lowestFree_isLowest h
          rw [assignFrom_lowest hstated, heq]
          exact .lowest hstated hlowest (ih hfull)

theorem Assigns.users (h : Assigns taken ds ports) :
    ports.map Prod.fst = ds.map ClientPortInput.user := by
  induction h with
  | nil => rfl
  | stated _ _ ih | lowest _ _ _ ih => rw [List.map_cons, List.map_cons, ih]

/-- A port is stated, or was free. -/
theorem Assigns.stated_or_free (h : Assigns taken ds ports) :
    ∀ row ∈ ports, row.2 ∈ ds.filterMap statedPort ∨ row.2 ∉ taken := by
  induction h with
  | nil => exact fun row hrow ↦ absurd hrow List.not_mem_nil
  | stated hstated _ ih =>
      rw [List.filterMap_cons_some hstated]
      intro row hrow
      rcases List.mem_cons.mp hrow with rfl | hrow
      · exact .inl List.mem_cons_self
      · exact (ih row hrow).imp_left (List.mem_cons_of_mem _)
  | lowest hstated hlowest _ ih =>
      rw [List.filterMap_cons_none hstated]
      intro row hrow
      rcases List.mem_cons.mp hrow with rfl | hrow
      · exact .inr hlowest.1.2
      · exact (ih row hrow).imp_right fun hfree hmem ↦ hfree (List.mem_cons_of_mem _ hmem)

theorem Assigns.nodup (h : Assigns taken ds ports) (hstated : (ds.filterMap statedPort).Nodup)
    (htaken : ∀ n ∈ ds.filterMap statedPort, n ∈ taken) : (ports.map Prod.snd).Nodup := by
  induction h with
  | nil => exact List.nodup_nil
  | stated hd hrest ih =>
      rw [List.filterMap_cons_some hd] at hstated htaken
      obtain ⟨hnew, hstated⟩ := List.nodup_cons.mp hstated
      rw [List.map_cons, List.nodup_cons]
      refine ⟨fun hmem ↦ ?_, ih hstated fun n hn ↦ htaken n (List.mem_cons_of_mem _ hn)⟩
      obtain ⟨⟨user, port⟩, hrow, rfl⟩ := List.mem_map.mp hmem
      rcases hrest.stated_or_free _ hrow with hin | hfree
      · exact hnew hin
      · exact hfree (htaken _ List.mem_cons_self)
  | lowest hd hlowest hrest ih =>
      rw [List.filterMap_cons_none hd] at hstated htaken
      rw [List.map_cons, List.nodup_cons]
      refine ⟨fun hmem ↦ ?_, ih hstated fun n hn ↦ List.mem_cons_of_mem _ (htaken n hn)⟩
      obtain ⟨⟨user, port⟩, hrow, rfl⟩ := List.mem_map.mp hmem
      rcases hrest.stated_or_free _ hrow with hin | hfree
      · exact hlowest.1.2 (htaken _ hin)
      · exact hfree List.mem_cons_self

theorem Assigns.mem_stated (h : Assigns taken ds ports) {n : Number} (hd : d ∈ ds)
    (hstated : statedPort d = some n) : (d.user, n) ∈ ports := by
  induction h with
  | nil => cases hd
  | stated hhead _ ih =>
      rcases List.mem_cons.mp hd with rfl | hd
      · obtain rfl := Option.some.inj (hstated.symm.trans hhead)
        exact List.mem_cons_self
      · exact List.mem_cons_of_mem _ (ih hd)
  | lowest hhead _ _ ih =>
      rcases List.mem_cons.mp hd with rfl | hd
      · cases hstated.symm.trans hhead
      · exact List.mem_cons_of_mem _ (ih hd)

/-- A port that nobody stated is the lowest one that is neither taken nor given
to a desktop before. -/
theorem Assigns.lowest_at {before after : List ClientPortInput}
    (h : Assigns taken (before ++ d :: after) ports) (hd : statedPort d = none)
    (htaken : ∀ n ∈ before.filterMap statedPort, n ∈ taken) :
    ∃ rows p rest, ports = rows ++ (d.user, .ofInt p) :: rest ∧
      rows.map Prod.fst = before.map ClientPortInput.user ∧
      IsLowest (rows.map Prod.snd ++ taken) p := by
  induction before generalizing taken ports with
  | nil =>
      cases h with
      | stated hstated => cases hd.symm.trans hstated
      | lowest _ hlowest hrest => exact ⟨[], _, _, rfl, rfl, hlowest⟩
  | cons e before ih =>
      cases h with
      | @stated _ _ _ ports n hstated hrest =>
          rw [List.filterMap_cons_some hstated] at htaken
          obtain ⟨rows, p, rest, rfl, hrows, hlowest⟩ :=
            ih hrest fun n hn ↦ htaken n (List.mem_cons_of_mem _ hn)
          have hn := htaken n List.mem_cons_self
          refine ⟨(e.user, n) :: rows, p, rest, rfl, by simp [hrows], hlowest.congr fun m ↦ ?_⟩
          constructor
          · exact fun h ↦ List.mem_cons_of_mem _ h
          · rintro (_ | ⟨_, h⟩)
            · exact List.mem_append_right _ hn
            · exact h
      | @lowest _ _ _ ports q hnone _ hrest =>
          rw [List.filterMap_cons_none hnone] at htaken
          obtain ⟨rows, p, rest, rfl, hrows, hlowest⟩ :=
            ih hrest fun n hn ↦ List.mem_cons_of_mem _ (htaken n hn)
          refine ⟨(e.user, .ofInt q) :: rows, p, rest, rfl, by simp [hrows],
            hlowest.congr fun m ↦ ?_⟩
          simp only [List.map_cons, List.cons_append, List.mem_append, List.mem_cons]
          tauto

/-- Further desktops do not change the rows before them. -/
theorem assignFrom_append {es : List ClientPortInput} :
    ∃ more, assignFrom taken next (ds ++ es) = assignFrom taken next ds ++ more ∧
      more.map Prod.fst = es.map ClientPortInput.user := by
  induction ds generalizing taken next with
  | nil =>
      refine ⟨assignFrom taken next es, rfl, ?_⟩
      induction es generalizing taken next with
      | nil => rfl
      | cons e es ih =>
          cases hstated : statedPort e with
          | some n => rw [assignFrom_stated hstated, List.map_cons, List.map_cons, ih]
          | none => rw [assignFrom_lowest hstated, List.map_cons, List.map_cons, ih]
  | cons d ds ih =>
      rw [List.cons_append]
      cases hstated : statedPort d with
      | some n =>
          obtain ⟨more, heq, hmore⟩ := @ih taken next
          rw [assignFrom_stated hstated, assignFrom_stated hstated, heq]
          exact ⟨more, rfl, hmore⟩
      | none =>
          obtain ⟨more, heq, hmore⟩ := @ih (lowestFree taken taken.length next :: taken)
            (lowestFree taken taken.length next)
          rw [assignFrom_lowest hstated, assignFrom_lowest hstated, heq]
          exact ⟨more, rfl, hmore⟩

end Rows

/-! ## Looking a port up -/

theorem strictEq_str_iff {v : Val} {s : String} : v.strictEq (.str s) = true ↔ v = .str s := by
  cases v <;> simp [Val.strictEq]

/-- Every account is a text of its own. -/
structure Accounts (users : List Val) : Prop where
  texts : ∀ user ∈ users, ∃ s, user = .str s
  nodup : users.Nodup

section Lookup

variable {ports more : List (Val × Number)} {user : Val} {n : Number}

theorem portOf_of_mem (h : Accounts (ports.map Prod.fst)) (hmem : (user, n) ∈ ports) :
    portOf ports user = .num n := by
  obtain ⟨s, rfl⟩ := h.texts user (List.mem_map_of_mem hmem)
  rw [portOf]
  cases hfind : ports.reverse.find? fun p ↦ p.1.strictEq (.str s) with
  | none =>
      have hnone := List.find?_eq_none.mp hfind _ (List.mem_reverse.mpr hmem)
      exact absurd (strictEq_str_iff.mpr rfl) hnone
  | some row =>
      have hrow := List.mem_reverse.mp (List.mem_of_find?_eq_some hfind)
      have huser : row.1 = .str s :=
        strictEq_str_iff.mp (@List.find?_some _ (fun p : Val × Number ↦ p.1.strictEq (.str s)) _ _ hfind)
      have hsame := List.inj_on_of_nodup_map h.nodup hrow hmem huser
      rw [hsame]

theorem portOf_of_notMem (h : user ∉ ports.map Prod.fst) {s : String} (huser : user = .str s) :
    portOf ports user = .undef := by
  subst huser
  rw [portOf]
  cases hfind : ports.reverse.find? fun p ↦ p.1.strictEq (.str s) with
  | none => rfl
  | some row =>
      have hrow := List.mem_reverse.mp (List.mem_of_find?_eq_some hfind)
      have heq : row.1 = .str s :=
        strictEq_str_iff.mp (@List.find?_some _ (fun p : Val × Number ↦ p.1.strictEq (.str s)) _ _ hfind)
      exact absurd (heq ▸ List.mem_map_of_mem hrow) h

end Lookup

/-! ## What a list of developers gets -/

def desktopsOf (devs : List ClientPortInput) : List ClientPortInput :=
  devs.filter fun d ↦ d.desktopEnabled.truthy

theorem desktopsOf_cons_pos {d : ClientPortInput} {devs : List ClientPortInput}
    (h : d.desktopEnabled.truthy = true) : desktopsOf (d :: devs) = d :: desktopsOf devs :=
  List.filter_cons_of_pos (p := fun d : ClientPortInput ↦ d.desktopEnabled.truthy) h

theorem desktopsOf_cons_neg {d : ClientPortInput} {devs : List ClientPortInput}
    (h : ¬d.desktopEnabled.truthy = true) : desktopsOf (d :: devs) = desktopsOf devs :=
  List.filter_cons_of_neg (p := fun d : ClientPortInput ↦ d.desktopEnabled.truthy) h

theorem desktopsOf_append (before after : List ClientPortInput) :
    desktopsOf (before ++ after) = desktopsOf before ++ desktopsOf after := List.filter_append ..

/-- What the validator makes sure of: accounts are texts that differ, a stated
port is a number from 1024 on, and no two desktops state the same one. -/
structure Assignable (devs : List ClientPortInput) : Prop where
  accounts : Accounts (devs.map ClientPortInput.user)
  ports : ∀ d ∈ devs, d.clientPort = .undef ∨ ∃ z : ℤ, 1024 ≤ z ∧ d.clientPort = .num (.ofInt z)
  distinct : ((desktopsOf devs).filterMap statedPort).Nodup

/-- The ports that the developers dial, by account. -/
structure Assigned (devs : List ClientPortInput) (ports : List (Val × Number)) : Prop where
  every : ∀ d ∈ devs, d.desktopEnabled.truthy = true → ∃ n, portOf ports d.user = .num n
  nobodyElse : ∀ d ∈ devs, d.desktopEnabled.truthy = false → portOf ports d.user = .undef
  distinct : ∀ d ∈ desktopsOf devs, ∀ e ∈ desktopsOf devs,
    portOf ports d.user = portOf ports e.user → d.user = e.user
  honoured : ∀ d ∈ desktopsOf devs, ∀ n, d.clientPort = .num n → portOf ports d.user = .num n
  lowest : ∀ before d after, devs = before ++ d :: after → d.desktopEnabled.truthy = true →
    d.clientPort = .undef → ∃ p : ℤ, portOf ports d.user = .num (.ofInt p) ∧
      IsLeast {m : ℤ | 3389 ≤ m ∧ (∀ e ∈ desktopsOf devs, e.clientPort ≠ .num (.ofInt m)) ∧
        ∀ e ∈ before, portOf ports e.user ≠ .num (.ofInt m)} p

theorem truthy_of_stated {z : ℤ} (hz : 1024 ≤ z) : (Val.num (.ofInt z)).truthy = true := by
  have hzero : z ≠ 0 := by omega
  exact Bool.and_eq_true_iff.mpr ⟨bne_iff_ne.mpr fun h ↦ hzero (Number.ofInt_inj.mp h), rfl⟩

section Assigned

variable {devs : List ClientPortInput} (h : Assignable devs)

theorem assigns_clientPorts : Assigns ((desktopsOf devs).filterMap statedPort) (desktopsOf devs)
    (assignClientPorts devs) :=
  assigns_assignFrom ⟨le_refl 3389, fun _ hlow hhigh ↦ absurd hlow (by omega)⟩

theorem users_clientPorts :
    (assignClientPorts devs).map Prod.fst = (desktopsOf devs).map ClientPortInput.user :=
  assigns_clientPorts.users

include h

theorem accounts_clientPorts : Accounts ((assignClientPorts devs).map Prod.fst) := by
  rw [users_clientPorts]
  have hsub : List.Sublist ((desktopsOf devs).map ClientPortInput.user)
      (devs.map ClientPortInput.user) := List.filter_sublist.map _
  exact ⟨fun user huser ↦ h.accounts.texts user (hsub.subset huser), h.accounts.nodup.sublist hsub⟩

theorem statedPort_eq_some {d : ClientPortInput} (hd : d ∈ devs) {n : Number} :
    statedPort d = some n ↔ d.clientPort = .num n := by
  rw [statedPort]
  rcases h.ports d hd with hundef | ⟨z, hz, hnum⟩
  · simp [hundef]
  · simp [hnum, truthy_of_stated hz]

theorem exists_row {d : ClientPortInput} (hd : d ∈ desktopsOf devs) :
    ∃ n, (d.user, n) ∈ assignClientPorts devs ∧ portOf (assignClientPorts devs) d.user = .num n := by
  have huser : d.user ∈ (assignClientPorts devs).map Prod.fst := by
    rw [users_clientPorts]
    exact List.mem_map_of_mem hd
  obtain ⟨⟨user, n⟩, hrow, rfl⟩ := List.mem_map.mp huser
  exact ⟨n, hrow, portOf_of_mem (accounts_clientPorts h) hrow⟩

/-- The lookup gives what the row of a desktop holds, and nothing for others. -/
theorem portOf_eq_num {d : ClientPortInput} (hd : d ∈ devs) {n : Number} :
    portOf (assignClientPorts devs) d.user = .num n ↔ (d.user, n) ∈ assignClientPorts devs := by
  constructor
  · intro hport
    by_cases hdesktop : d ∈ desktopsOf devs
    · obtain ⟨m, hrow, hm⟩ := exists_row h hdesktop
      obtain rfl := Val.num.inj (hm.symm.trans hport)
      exact hrow
    · obtain ⟨s, hs⟩ := h.accounts.texts d.user (List.mem_map_of_mem hd)
      have hnone : d.user ∉ (assignClientPorts devs).map Prod.fst := by
        rw [users_clientPorts]
        intro hmem
        obtain ⟨e, he, hsame⟩ := List.mem_map.mp hmem
        have heq := List.inj_on_of_nodup_map h.accounts.nodup (List.mem_of_mem_filter he) hd hsame
        exact hdesktop (heq ▸ he)
      rw [portOf_of_notMem hnone hs] at hport
      cases hport
  · exact portOf_of_mem (accounts_clientPorts h)

theorem portOf_eq_undef {d : ClientPortInput} (hd : d ∈ devs)
    (hoff : d.desktopEnabled.truthy = false) :
    portOf (assignClientPorts devs) d.user = .undef := by
  obtain ⟨s, hs⟩ := h.accounts.texts d.user (List.mem_map_of_mem hd)
  refine portOf_of_notMem ?_ hs
  rw [users_clientPorts]
  intro hmem
  obtain ⟨e, he, hsame⟩ := List.mem_map.mp hmem
  have heq := List.inj_on_of_nodup_map h.accounts.nodup (List.mem_of_mem_filter he) hd hsame
  have hon := (List.mem_filter.mp (heq ▸ he)).2
  simp [hoff] at hon

theorem lowest_clientPort {before after : List ClientPortInput} {d : ClientPortInput}
    (hdevs : devs = before ++ d :: after) (hon : d.desktopEnabled.truthy = true)
    (hnone : d.clientPort = .undef) :
    ∃ p : ℤ, portOf (assignClientPorts devs) d.user = .num (.ofInt p) ∧
      IsLeast {m : ℤ | 3389 ≤ m ∧ (∀ e ∈ desktopsOf devs, e.clientPort ≠ .num (.ofInt m)) ∧
        ∀ e ∈ before, portOf (assignClientPorts devs) e.user ≠ .num (.ofInt m)} p := by
  have hsplit : desktopsOf devs = desktopsOf before ++ d :: desktopsOf after := by
    rw [hdevs, desktopsOf_append, desktopsOf_cons_pos hon]
  have hbefore : ∀ e ∈ before, e ∈ devs := fun e he ↦ hdevs ▸ List.mem_append_left _ he
  have hunstated : statedPort d = none := by rw [statedPort, hnone]
  obtain ⟨rows, p, rest, hrows, husers, hlowest⟩ :=
    (hsplit ▸ @assigns_clientPorts devs).lowest_at hunstated fun n hn ↦ by
      rw [List.filterMap_append]
      exact List.mem_append_left _ hn
  have hport : (d.user, .ofInt p) ∈ assignClientPorts devs := by
    rw [hrows]
    exact List.mem_append_right _ List.mem_cons_self
  refine ⟨p, (portOf_eq_num h (by simp [hdevs])).mpr hport, ?_⟩
  have hset : {m : ℤ | 3389 ≤ m ∧ (∀ e ∈ desktopsOf devs, e.clientPort ≠ .num (.ofInt m)) ∧
      ∀ e ∈ before, portOf (assignClientPorts devs) e.user ≠ .num (.ofInt m)} =
      {m : ℤ | 3389 ≤ m ∧ Number.ofInt m ∉ rows.map Prod.snd ++
        (desktopsOf before ++ d :: desktopsOf after).filterMap statedPort} := by
    ext m
    refine and_congr_right fun _ ↦ ?_
    rw [List.mem_append, not_or, and_comm, ← hsplit]
    refine and_congr ?_ ?_
    · rw [List.mem_map]
      constructor
      · rintro hfree ⟨⟨user, n⟩, hrow, rfl⟩
        have huser : user ∈ (desktopsOf before).map ClientPortInput.user := by
          rw [← husers]
          exact List.mem_map_of_mem hrow
        obtain ⟨e, he, rfl⟩ := List.mem_map.mp huser
        have hmem := List.mem_of_mem_filter he
        refine hfree e hmem ((portOf_eq_num h (hbefore e hmem)).mpr ?_)
        rw [hrows]
        exact List.mem_append_left _ hrow
      · intro hfree e he heq
        by_cases hdesktop : e.desktopEnabled.truthy = true
        · have huser : e.user ∈ rows.map Prod.fst := by
            rw [husers]
            exact List.mem_map_of_mem (List.mem_filter.mpr ⟨he, hdesktop⟩)
          obtain ⟨⟨user, n⟩, hrow, rfl⟩ := List.mem_map.mp huser
          have hin : (e.user, n) ∈ assignClientPorts devs := by
            rw [hrows]
            exact List.mem_append_left _ hrow
          rw [(portOf_eq_num h (hbefore e he)).mpr hin] at heq
          exact hfree ⟨(e.user, n), hrow, Val.num.inj heq⟩
        · rw [portOf_eq_undef h (hbefore e he) (by simpa using hdesktop)] at heq
          cases heq
    · rw [List.mem_filterMap]
      constructor
      · rintro hfree ⟨e, he, hstated⟩
        exact hfree e he ((statedPort_eq_some h (List.mem_of_mem_filter he)).mp hstated)
      · intro hfree e he heq
        exact hfree ⟨e, he, (statedPort_eq_some h (List.mem_of_mem_filter he)).mpr heq⟩
  rw [hset]
  exact hlowest

theorem assigned_clientPorts : Assigned devs (assignClientPorts devs) where
  every d hd hon := by
    obtain ⟨n, -, hn⟩ := exists_row h (List.mem_filter.mpr ⟨hd, hon⟩)
    exact ⟨n, hn⟩
  nobodyElse d hd hoff := portOf_eq_undef h hd hoff
  distinct d hd e he hport := by
    obtain ⟨n, hrow, hn⟩ := exists_row h hd
    obtain ⟨m, hrow', hm⟩ := exists_row h he
    obtain rfl := Val.num.inj (hn.symm.trans (hport.trans hm))
    have hnodup := assigns_clientPorts.nodup h.distinct fun _ hn ↦ hn
    exact (Prod.mk.inj (List.inj_on_of_nodup_map hnodup hrow hrow' rfl)).1
  honoured d hd n hn := by
    have hmem := List.mem_of_mem_filter hd
    have hstated := (statedPort_eq_some h hmem).mpr hn
    exact (portOf_eq_num h hmem).mpr (assigns_clientPorts.mem_stated hd hstated)
  lowest _ _ _ hdevs hon hnone := lowest_clientPort h hdevs hon hnone

end Assigned

/-- A further developer who states no port does not move the others. -/
theorem portOf_append {devs : List ClientPortInput} {d e : ClientPortInput}
    (hnone : d.clientPort = .undef) (hother : e.user ≠ d.user) {s : String} (huser : e.user = .str s) :
    portOf (assignClientPorts (devs ++ [d])) e.user = portOf (assignClientPorts devs) e.user := by
  have hunstated : statedPort d = none := by rw [statedPort, hnone]
  obtain ⟨more, heq, hmore⟩ : ∃ more, assignClientPorts (devs ++ [d]) =
      assignClientPorts devs ++ more ∧ ∀ row ∈ more, row.1 = d.user := by
    change ∃ more, assignFrom ((desktopsOf (devs ++ [d])).filterMap statedPort) DEFAULT_CLIENT_PORT
      (desktopsOf (devs ++ [d])) = assignFrom ((desktopsOf devs).filterMap statedPort)
        DEFAULT_CLIENT_PORT (desktopsOf devs) ++ more ∧ _
    rw [desktopsOf_append, List.filterMap_append]
    by_cases hon : d.desktopEnabled.truthy = true
    · rw [desktopsOf_cons_pos hon, List.filterMap_cons_none hunstated]
      obtain ⟨more, heq, hmore⟩ := @assignFrom_append ((desktopsOf devs).filterMap statedPort)
        DEFAULT_CLIENT_PORT (desktopsOf devs) [d]
      refine ⟨more, by simpa [desktopsOf] using heq, fun row hrow ↦ ?_⟩
      have hmem := List.mem_map_of_mem (f := Prod.fst) hrow
      rw [hmore] at hmem
      exact List.mem_singleton.mp hmem
    · rw [desktopsOf_cons_neg hon]
      exact ⟨[], by simp [desktopsOf], fun row hrow ↦ absurd hrow List.not_mem_nil⟩
  have hskip : more.reverse.find? (fun p ↦ p.1.strictEq e.user) = none := by
    refine List.find?_eq_none.mpr fun row hrow htrue ↦ ?_
    rw [huser] at htrue hother
    exact hother ((strictEq_str_iff.mp htrue).symm.trans (hmore row (List.mem_reverse.mp hrow)))
  rw [heq, portOf, portOf, List.reverse_append, List.find?_append, hskip, Option.none_or]

/-! ## What the validator admits -/

/-- The port that a developer with a desktop states. -/
def claimedPort (dev : Val) : Option Number :=
  if ((dev.get "desktop").get "enabled").isBoolLit true then
    match (dev.get "desktop").get "client_port" with
    | .num n => some n
    | _ => none
  else none

/-- The claims of a passing list differ from each other and from those before. -/
theorem claims_distinct {claimed : List (String × String)} {devs : List Val}
    (husers : ∀ dev ∈ devs, ∃ user, dev.get "user" = .str user ∧ user ≠ "")
    (h : (validateClientPorts claimed devs).Passes) :
    (devs.filterMap claimedPort).Nodup ∧
      ∀ n ∈ devs.filterMap claimedPort, ∀ c ∈ claimed, c.2 ≠ "" → c.1 ≠ n.toStr := by
  induction devs generalizing claimed with
  | nil => exact ⟨List.nodup_nil, fun n hn ↦ absurd hn List.not_mem_nil⟩
  | cons dev devs ih =>
      obtain ⟨user, huser, hne⟩ := husers dev List.mem_cons_self
      have hrest := fun d hd ↦ husers d (List.mem_cons_of_mem _ hd)
      rw [validateClientPorts] at h
      by_cases hon : ((dev.get "desktop").get "enabled").isBoolLit true = true
      · rw [if_pos hon] at h
        split at h
        · rename_i n hport
          have hclaim : claimedPort dev = some n := by rw [claimedPort, if_pos hon, hport]
          rw [List.filterMap_cons_some hclaim]
          dsimp only at h
          split at h
          · simp only [Check.passes_eval, Check.passes_append, Check.not_passes_fail, false_and,
              and_false, exists_false] at h
          · rename_i hfresh
            simp only [Check.passes_eval, huser] at h
            obtain ⟨text, htext, h⟩ := h
            obtain rfl : user = text := Except.ok.inj htext
            obtain ⟨hnodup, hold⟩ := ih hrest h
            refine ⟨List.nodup_cons.mpr ⟨fun hmem ↦ ?_, hnodup⟩, fun m hm c hc hstated ↦ ?_⟩
            · exact hold n hmem _ List.mem_cons_self hne rfl
            · rcases List.mem_cons.mp hm with rfl | hm
              · intro hkey
                have hnot := List.find?_eq_none.mp hfresh c hc
                simp [hkey, hstated] at hnot
              · exact hold m hm c (List.mem_cons_of_mem _ hc) hstated
        · rename_i hnone
          have hclaim : claimedPort dev = none := by
            rw [claimedPort, if_pos hon]
            split
            · rename_i n hport
              exact (hnone n hport).elim
            · rfl
          rw [List.filterMap_cons_none hclaim]
          exact ih hrest h
      · rw [if_neg hon] at h
        have hclaim : claimedPort dev = none := by rw [claimedPort, if_neg hon]
        rw [List.filterMap_cons_none hclaim]
        exact ih hrest h

theorem desktop_admitted {desktop : Val} {base : String}
    (h : (validateDesktop desktop base).Passes) :
    (desktop.get "enabled" = .undef ∨ ∃ b, desktop.get "enabled" = .bool b) ∧
      (desktop.get "client_port" = .undef ∨
        ∃ z : ℤ, 1024 ≤ z ∧ desktop.get "client_port" = .num (.ofInt z)) := by
  rcases Check.section_cases h with habsent | hbody
  · exact ⟨.inl (habsent _), .inl (habsent _)⟩
  · simp only [Check.passes_append, passes_optional, Check.passes_when, Check.not_passes_fail,
      imp_false, Bool.not_eq_true', Bool.not_eq_false, and_assoc] at hbody
    obtain ⟨henabled, -, -, -, -, -, hport, -⟩ := hbody
    refine ⟨.inr ?_, hport.imp_right fun hport ↦ ?_⟩
    · cases hv : desktop.get "enabled" with
      | bool b => exact ⟨b, rfl⟩
      | _ => simp [hv, Val.isBool] at henabled
    · cases hv : desktop.get "client_port" with
      | num n =>
          rw [hv] at hport
          simp only [isIntegerIn, Bool.and_eq_true, Number.isInteger_iff] at hport
          obtain ⟨⟨⟨z, rfl⟩, hlow⟩, -⟩ := hport
          exact ⟨z, by simpa [Number.le_ofInt] using hlow, rfl⟩
      | _ => simp [hv, isIntegerIn] at hport

/-- The rows of an accepted configuration. -/
def clientPortInputs (resolved : Val) : List ClientPortInput :=
  (developersOf resolved).map clientPortInput

/-- A row states what the validator looked at. -/
theorem claimedPort_eq {dev rdev : Val} {base : String}
    (hdesktop : (validateDesktop (dev.get "desktop") base).Passes)
    (hsame : rdev.get "desktop" = dev.get "desktop") :
    claimedPort dev =
      if (clientPortInput rdev).desktopEnabled.truthy then statedPort (clientPortInput rdev)
      else none := by
  obtain ⟨henabled, hport⟩ := desktop_admitted hdesktop
  rw [claimedPort, statedPort, clientPortInput, hsame]
  rcases henabled with hundef | ⟨b, hb⟩
  · rw [hundef]
    rfl
  · rw [hb]
    cases b with
    | false => rfl
    | true =>
        rcases hport with hundef | ⟨z, hz, hnum⟩
        · rw [hundef]
          rfl
        · rw [hnum]
          exact (if_pos (truthy_of_stated hz)).symm

theorem assignable_of_accepts {env : ClientEnv} {doc : Doc} {resolved : Val}
    (h : Accepts env doc resolved) : Assignable (clientPortInputs resolved) := by
  obtain ⟨devs, h⟩ := accepted h
  have hmatch := h.developers_match
  have husers : devs.map (fun dev ↦ dev.get "user") =
      (clientPortInputs resolved).map ClientPortInput.user := by
    rw [clientPortInputs, List.map_map]
    exact map_eq_of_forall₂ hmatch fun dev rdev hdev ↦ (hdev.2.fields "user" (by decide)).symm
  have hpasses : ∀ dev ∈ devs, ∃ base, (validateDesktop (dev.get "desktop") base).Passes := by
    intro dev hdev
    obtain ⟨base, hdev⟩ := h.developers.each dev hdev
    exact ⟨_, hdev.desktop⟩
  refine ⟨⟨?_, husers ▸ accepted_users_nodup h⟩, ?_, ?_⟩
  · rw [← husers]
    intro user huser
    obtain ⟨dev, hdev, rfl⟩ := List.mem_map.mp huser
    obtain ⟨name, hname, -⟩ := accepted_user h hdev
    exact ⟨name, hname⟩
  · intro d hd
    obtain ⟨rdev, hrdev, rfl⟩ := List.mem_map.mp hd
    obtain ⟨dev, -, hdev, hresolved⟩ := forall₂_exists_left hmatch hrdev
    obtain ⟨base, hdesktop⟩ := hpasses dev hdev
    rw [clientPortInput, hresolved.fields "desktop" (by decide)]
    exact (desktop_admitted hdesktop).2
  · have hclaims : devs.filterMap claimedPort =
        (desktopsOf (clientPortInputs resolved)).filterMap statedPort := by
      rw [desktopsOf, List.filterMap_filter, clientPortInputs, List.filterMap_map]
      refine filterMap_eq_of_forall₂ hmatch fun dev rdev ⟨hdev, hresolved⟩ ↦ ?_
      obtain ⟨base, hdesktop⟩ := hpasses dev hdev
      exact claimedPort_eq hdesktop (hresolved.fields "desktop" (by decide))
    rw [← hclaims]
    refine (claims_distinct (fun dev hdev ↦ ?_) h.developers.clientPorts).1
    obtain ⟨name, hname, hre⟩ := accepted_user h hdev
    refine ⟨name, hname, ?_⟩
    rintro rfl
    exact absurd hre (by decide +kernel)

/-- Whatever the accepted developers state, and whoever comes after them
without a port. -/
theorem client_ports_assigned {env : ClientEnv} {doc : Doc} {resolved : Val}
    (h : Accepts env doc resolved) :
    Assigned (clientPortInputs resolved) (assignClientPorts (clientPortInputs resolved)) ∧
      ∀ d : ClientPortInput, d.clientPort = .undef →
        (∀ e ∈ clientPortInputs resolved, e.user ≠ d.user) → ∀ e ∈ clientPortInputs resolved,
          portOf (assignClientPorts (clientPortInputs resolved ++ [d])) e.user =
            portOf (assignClientPorts (clientPortInputs resolved)) e.user := by
  have hassignable := assignable_of_accepts h
  refine ⟨assigned_clientPorts hassignable, fun d hnone hother e he ↦ ?_⟩
  obtain ⟨user, huser⟩ := hassignable.accounts.texts e.user (List.mem_map_of_mem he)
  exact portOf_append hnone (hother e he) huser

/-- Two desktops, of which the second states the first one's port by default. -/
def twoDesktops : Val :=
  .obj (baseSpec.merge [("developers", .arr
    [.obj [("user", "ada"), ("login_ssh_keys", .arr ["ssh-ed25519 AAAA"]),
      ("desktop", .obj [("enabled", true)])],
     .obj [("user", "bob"), ("login_ssh_keys", .arr ["ssh-ed25519 AAAA"]),
      ("desktop", .obj [("enabled", true), ("client_port", 3389)])]])])

theorem twoDesktops_assigned : ∃ resolved,
    Assigned (clientPortInputs resolved) (assignClientPorts (clientPortInputs resolved)) ∧
      (portOf (assignClientPorts (clientPortInputs resolved)) "ada").isNumLit (.ofInt 3390) =
        true := by
  have hparsed : twoDesktops.parsed = true := by decide +kernel
  have hports : (resolvedOf homeEnv twoDesktops).any (fun resolved ↦
      (portOf (assignClientPorts (clientPortInputs resolved)) "ada").isNumLit (.ofInt 3390)) =
        true := by
    decide +kernel
  obtain ⟨resolved, hresolved, hport⟩ := (Option.any_eq_true _ _).mp hports
  have haccepts : Accepts homeEnv ⟨twoDesktops, hparsed⟩ resolved := accepts_of_resolvedOf hresolved
  exact ⟨resolved, (client_ports_assigned haccepts).1, hport⟩

end RemoteDevbox.Spec
