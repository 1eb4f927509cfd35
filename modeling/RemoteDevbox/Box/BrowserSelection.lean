import RemoteDevbox.Box.BrowserReap
import RemoteDevbox.Lib.Lists
import Mathlib.Data.Finset.Card
import Mathlib.Data.List.ReduceOption

namespace RemoteDevbox.Box.Reap

open Py

/-!
# What the reaper knows about a browser

The sweep joins files, descriptors and socket tables, some of which it cannot
read. What it does not see may hold anything.
-/

/-! ## Entries that cannot be read -/

def Reading.hidden {α : Type} : Reading α → Bool
  | .denied => true
  | .fault => true
  | _ => false

/-- `full` says the same, or what could not be read. -/
def Fill {α : Type} (seen full : Reading α) : Prop := seen = full ∨ seen.hidden = true

/-- The listed descriptors stay, their links may become readable. -/
def FillFds (seen full : Reading (List (Reading (List Char)))) : Prop :=
  Fill seen full ∨ ∃ links links', seen = .found links ∧ full = .found links' ∧
    List.Forall₂ Fill links links'

/-- The same processes and sockets, with more that can be read. -/
structure Fills (seen full : Procfs) : Prop where
  pids : full.pids = seen.pids
  file : ∀ pid name, Fill (seen.file pid name) (full.file pid name)
  fds : ∀ pid, FillFds (seen.fds pid) (full.fds pid)
  tables : List.Forall₂ Fill seen.tables full.tables

/-- The inodes of the descriptors that can be read. -/
def inodes (procfs : Procfs) (pid : ℤ) : List ℤ := (socketInodes procfs pid).getD []

/-- More processes than before, and sockets that the process does not hold. -/
structure Joined (procfs more : Procfs) (pid : ℤ) : Prop where
  mem : pid ∈ procfs.pids
  pids : procfs.pids ⊆ more.pids
  files : ∀ q ∈ procfs.pids, ∀ name, more.file q name = procfs.file q name
  others : ∀ q name, procfs.file q name = .absent ∨ more.file q name = procfs.file q name
  fds : more.fds pid = procfs.fds pid
  kept : ∀ row ∈ rows procfs, row ∈ rows more
  foreign : ∀ row ∈ rows more, row ∈ rows procfs ∨ row.inode ∉ inodes procfs pid

/-! ## Spawners, endpoints and clients -/

section

variable (globs : List String) (procfs : Procfs) (pid : ℤ)

def Selected : Prop :=
  ∃ browsers, readBrowsers procfs = .ok browsers ∧
    ∃ browser ∈ selectOrphans globs browsers, browser.pid = pid

/-- The parent is init, is not there, or is the user's manager. -/
def SpawnerGone (ppid : ℤ) : Prop :=
  ppid ≤ 1 ∨ procfs.file ppid "cmdline" = .absent ∨
    ∃ raw, procfs.file ppid "cmdline" = .found raw ∧ isUserManager (shown raw) = true

/-- A socket that the process listens with. -/
def Endpoint (row : Row) : Prop :=
  row ∈ rows procfs ∧ row.listens = true ∧ row.inode ∈ inodes procfs pid

/-- A socket of the process that something is connected to. -/
def Client (row : Row) : Prop :=
  row ∈ rows procfs ∧ row.connected = true ∧ row.inode ∈ inodes procfs pid

/-- A throwaway browser whose spawner is gone and that has an endpoint with no
client on any. -/
structure Abandoned : Prop where
  own : ∃ own, ownFacts procfs pid = .ok (some own) ∧
    isThrowawayProfile (profileDir own.cmdline) globs = true ∧
    isServiceCgroup own.cgroup = false ∧ SpawnerGone procfs own.ppid
  endpoint : ∃ row, Endpoint procfs pid row
  noClient : ∀ endpoint client, Endpoint procfs pid endpoint → Client procfs pid client →
    endpoint.localPort ≠ client.localPort

/-- The selection of one process is known to be right, whatever could not be
read, and is not owed to unrelated programs. -/
structure FailsClosed : Prop where
  known : Selected globs procfs pid → ∀ full, Fills procfs full → Abandoned globs full pid ∧
    ∀ browsers, readBrowsers full = .ok browsers → Selected globs full pid
  unrelated : ∀ more, Joined procfs more pid → Selected globs more pid → Selected globs procfs pid

/-! ## When that is so -/

/-- Nothing that the sweep can read spares the process with these files. -/
structure Unspared (own : Own) : Prop where
  swept : ∃ browsers, readBrowsers procfs = .ok browsers
  mem : pid ∈ procfs.pids
  facts : ownFacts procfs pid = .ok (some own)
  throwaway : isThrowawayProfile (profileDir own.cmdline) globs = true
  notService : isServiceCgroup own.cgroup = false
  spawner : SpawnerGone procfs own.ppid ∨ (procfs.file own.ppid "cmdline").hidden = true
  endpoint : ∃ row, Endpoint procfs pid row
  noClient : ∀ endpoint client, Endpoint procfs pid endpoint → Client procfs pid client →
    endpoint.localPort ≠ client.localPort

/-- How many links of the process cannot be read. -/
def hiddenLinks : ℕ :=
  match procfs.fds pid with
  | .found links => links.countP Reading.hidden
  | _ => 0

/-- The sweep has read all that could speak for a browser. -/
structure Evident (own : Own) : Prop where
  parent : own.ppid ≤ 1 ∨ (procfs.file own.ppid "cmdline").hidden = false
  tables : ∀ table ∈ procfs.tables, table.hidden = false
  links : ∀ endpoint ∈ rows procfs, ∀ client ∈ rows procfs, endpoint.listens = true →
    client.connected = true → endpoint.localPort = client.localPort →
    hiddenLinks procfs pid <
      (({endpoint.inode, client.inode} : Finset ℤ) \ (inodes procfs pid).toFinset).card

end

variable {globs : List String} {procfs full : Procfs} {pid : ℤ} {own : Own}

/-! ## The rules in terms of rows -/

theorem mem_portsOf {wanted : Row → Bool} {mine : List ℤ} {table : List Row} {port : ℤ} :
    port ∈ portsOf wanted mine table ↔
      ∃ row ∈ table, row.inode ∈ mine ∧ wanted row = true ∧ row.localPort = port := by
  simp only [portsOf, List.mem_map, List.mem_filter, Bool.and_eq_true, List.contains_iff_mem]
  constructor
  · rintro ⟨row, ⟨hrow, hmine, hwanted⟩, rfl⟩
    exact ⟨row, hrow, hmine, hwanted, rfl⟩
  · rintro ⟨row, hrow, hmine, hwanted, rfl⟩
    exact ⟨row, ⟨hrow, hmine, hwanted⟩, rfl⟩

theorem mem_listenPorts {port : ℤ} :
    port ∈ (cdpPorts procfs pid).1 ↔ ∃ row, Endpoint procfs pid row ∧ row.localPort = port := by
  unfold cdpPorts Endpoint inodes
  split
  · rename_i hnone
    simp [hnone]
  · rename_i mine hmine
    simp only [mem_portsOf, hmine, Option.getD_some]
    constructor
    · rintro ⟨row, hrow, hin, hlistens, hport⟩
      exact ⟨row, ⟨hrow, hlistens, hin⟩, hport⟩
    · rintro ⟨row, ⟨hrow, hlistens, hin⟩, hport⟩
      exact ⟨row, hrow, hin, hlistens, hport⟩

theorem mem_peerPorts {port : ℤ} :
    port ∈ (cdpPorts procfs pid).2.1 ↔ ∃ row, Client procfs pid row ∧ row.localPort = port := by
  unfold cdpPorts Client inodes
  split
  · rename_i hnone
    simp [hnone]
  · rename_i mine hmine
    simp only [mem_portsOf, hmine, Option.getD_some]
    constructor
    · rintro ⟨row, hrow, hin, hconnected, hport⟩
      exact ⟨row, ⟨hrow, hconnected, hin⟩, hport⟩
    · rintro ⟨row, ⟨hrow, hconnected, hin⟩, hport⟩
      exact ⟨row, hrow, hin, hconnected, hport⟩

theorem spawnerAlive_eq_false {ppid : ℤ} :
    spawnerAlive procfs ppid = false ↔
      SpawnerGone procfs ppid ∨ (procfs.file ppid "cmdline").hidden = true := by
  unfold spawnerAlive SpawnerGone
  split
  · simp [*]
  · rename_i hlive
    cases hfile : procfs.file ppid "cmdline" with
    | found raw => simp [hlive, Reading.hidden]
    | _ => simp [Reading.hidden]

theorem exists_endpoint_iff :
    (cdpPorts procfs pid).1.isEmpty = false ↔ ∃ row, Endpoint procfs pid row := by
  rw [List.isEmpty_eq_false_iff_exists_mem]
  constructor
  · rintro ⟨port, hport⟩
    obtain ⟨row, hrow, -⟩ := mem_listenPorts.mp hport
    exact ⟨row, hrow⟩
  · rintro ⟨row, hrow⟩
    exact ⟨row.localPort, mem_listenPorts.mpr ⟨row, hrow, rfl⟩⟩

theorem readable_of_endpoint {row : Row} (h : Endpoint procfs pid row) :
    (cdpPorts procfs pid).2.2 = true := by
  obtain ⟨-, -, hin⟩ := h
  unfold inodes at hin
  unfold cdpPorts
  split
  · rename_i hnone
    rw [hnone] at hin
    cases hin
  · rfl

theorem no_client_iff :
    hasAttachedClient (browserOf procfs pid own) = false ↔
      ∀ endpoint client, Endpoint procfs pid endpoint → Client procfs pid client →
        endpoint.localPort ≠ client.localPort := by
  rw [hasAttachedClient, List.any_eq_false]
  constructor
  · intro h endpoint client hendpoint hclient hport
    refine h endpoint.localPort (mem_listenPorts.mpr ⟨endpoint, hendpoint, rfl⟩) ?_
    rw [List.contains_iff_mem]
    exact mem_peerPorts.mpr ⟨client, hclient, hport.symm⟩
  · intro h port hport hpeer
    rw [List.contains_iff_mem] at hpeer
    obtain ⟨endpoint, hendpoint, rfl⟩ := mem_listenPorts.mp hport
    obtain ⟨client, hclient, hsame⟩ := mem_peerPorts.mp hpeer
    exact h endpoint client hendpoint hclient hsame.symm

theorem isOrphan_browserOf :
    isOrphan globs (browserOf procfs pid own) = true ↔
      isThrowawayProfile (profileDir own.cmdline) globs = true ∧ isServiceCgroup own.cgroup = false ∧
        spawnerAlive procfs own.ppid = false ∧ (∃ row, Endpoint procfs pid row) ∧
        ∀ endpoint client, Endpoint procfs pid endpoint → Client procfs pid client →
          endpoint.localPort ≠ client.localPort := by
  rw [← @no_client_iff procfs pid own]
  constructor
  · intro h
    unfold isOrphan at h
    split at h
    · cases h
    rename_i hthrowaway
    split at h
    · cases h
    rename_i hservice
    split at h
    · cases h
    rename_i hspawner
    split at h
    · cases h
    rename_i hsockets
    obtain ⟨-, hports⟩ := not_or.mp (Bool.or_eq_true _ _ ▸ hsockets)
    rw [Bool.not_eq_true, Bool.not_eq_false'] at hthrowaway
    rw [Bool.not_eq_true] at hservice hspawner hports
    rw [Bool.not_eq_true'] at h
    exact ⟨hthrowaway, hservice, hspawner, exists_endpoint_iff.mp hports, h⟩
  · rintro ⟨hthrowaway, hservice, hspawner, ⟨row, hrow⟩, hclient⟩
    have hreadable : (browserOf procfs pid own).socketsReadable = true := readable_of_endpoint hrow
    have hports : (browserOf procfs pid own).listenPorts.isEmpty = false :=
      exists_endpoint_iff.mpr ⟨row, hrow⟩
    have hthrowaway : isThrowawayProfile (browserOf procfs pid own).profile globs = true :=
      hthrowaway
    have hservice : isServiceCgroup (browserOf procfs pid own).cgroup = false := hservice
    have hspawner : (browserOf procfs pid own).spawnerAlive = false := hspawner
    simp [isOrphan, hthrowaway, hservice, hspawner, hreadable, hports, hclient]

/-! ## The sweep -/

theorem readBrowser_eq {browser : Option Browser} :
    readBrowser procfs pid = .ok browser ↔
      ∃ own, ownFacts procfs pid = .ok own ∧ own.map (browserOf procfs pid) = browser := by
  rw [readBrowser, except_bind_eq_ok]
  constructor
  · rintro ⟨own, hown, hbrowser⟩
    exact ⟨own, hown, Except.ok.inj hbrowser⟩
  · rintro ⟨own, hown, rfl⟩
    exact ⟨own, hown, rfl⟩

theorem readBrowsers_eq {browsers : List Browser} :
    readBrowsers procfs = .ok browsers ↔ ∃ found, List.Forall₂ (fun q browser ↦
      ∃ own, ownFacts procfs q = .ok own ∧ own.map (browserOf procfs q) = browser)
        procfs.pids found ∧ found.reduceOption = browsers := by
  rw [readBrowsers, except_bind_eq_ok]
  simp only [except_mapM_eq_ok, readBrowser_eq]
  constructor
  · rintro ⟨found, hfound, hbrowsers⟩
    exact ⟨found, hfound, Except.ok.inj hbrowsers⟩
  · rintro ⟨found, hfound, rfl⟩
    exact ⟨found, hfound, rfl⟩

theorem swept_iff :
    (∃ browsers, readBrowsers procfs = .ok browsers) ↔
      ∀ q ∈ procfs.pids, ∃ own, ownFacts procfs q = .ok own := by
  constructor
  · rintro ⟨browsers, h⟩ q hq
    obtain ⟨found, hfound, -⟩ := readBrowsers_eq.mp h
    obtain ⟨_, -, own, hown, -⟩ := forall₂_exists_left hfound.flip hq
    exact ⟨own, hown⟩
  · intro h
    choose! own hown using h
    refine ⟨_, readBrowsers_eq.mpr ⟨procfs.pids.map fun q ↦ (own q).map (browserOf procfs q), ?_, rfl⟩⟩
    rw [List.forall₂_map_right_iff]
    exact List.forall₂_same.mpr fun q hq ↦ ⟨own q, hown q hq, rfl⟩

/-- A process is selected if the sweep gets through and nothing spares it. -/
theorem selected_iff :
    Selected globs procfs pid ↔ ∃ own, Unspared globs procfs pid own := by
  constructor
  · rintro ⟨browsers, hread, browser, hbrowser, rfl⟩
    obtain ⟨hmem, horphan⟩ := List.mem_filter.mp hbrowser
    obtain ⟨found, hfound, rfl⟩ := readBrowsers_eq.mp hread
    obtain ⟨q, hq, own, hown, hsome⟩ :=
      forall₂_exists_left hfound (List.reduceOption_mem_iff.mp hmem)
    obtain ⟨own, rfl, rfl⟩ := Option.map_eq_some_iff.mp hsome
    obtain ⟨hthrowaway, hservice, hspawner, hendpoint, hclient⟩ := isOrphan_browserOf.mp horphan
    exact ⟨own, ⟨_, hread⟩, hq, hown, hthrowaway, hservice, spawnerAlive_eq_false.mp hspawner,
      hendpoint, hclient⟩
  · rintro ⟨own, ⟨browsers, hread⟩, hmem, hown, hthrowaway, hservice, hspawner, hendpoint, hclient⟩
    obtain ⟨found, hfound, rfl⟩ := readBrowsers_eq.mp hread
    obtain ⟨browser, hbrowser, own', hown', rfl⟩ := forall₂_exists_left hfound.flip hmem
    rw [hown] at hown'
    obtain rfl := Except.ok.inj hown'
    refine ⟨_, hread, browserOf procfs pid own, List.mem_filter.mpr ⟨?_, ?_⟩, rfl⟩
    · exact List.reduceOption_mem_iff.mpr hbrowser
    · exact isOrphan_browserOf.mpr ⟨hthrowaway, hservice, spawnerAlive_eq_false.mpr hspawner,
        hendpoint, hclient⟩

/-! ## The files of the browser itself -/

/-- Files that were read say the same where more can be read. -/
theorem withFile_fill {α : Type} (hfill : Fills procfs full) {name : String} {a : α}
    {next next' : List Char → Except Fault (Option α)}
    (hnext : ∀ text, next text = .ok (some a) → next' text = .ok (some a))
    (h : withFile procfs pid name next = .ok (some a)) :
    withFile full pid name next' = .ok (some a) := by
  obtain ⟨text, hfile, htext⟩ := withFile_eq_some.mp h
  refine withFile_eq_some.mpr ⟨text, ?_, hnext text htext⟩
  rcases hfill.file pid name with hsame | hhidden
  · rw [← hsame, hfile]
  · rw [hfile] at hhidden
    cases hhidden

theorem ownFacts_fill (hfill : Fills procfs full) (h : ownFacts procfs pid = .ok (some own)) :
    ownFacts full pid = .ok (some own) := by
  refine withFile_fill hfill (fun comm h ↦ ?_) h
  split at h
  · cases h
  rename_i hcomm
  rw [if_neg hcomm]
  refine withFile_fill hfill (fun raw h ↦ ?_) h
  split at h
  · cases h
  rename_i hraw
  rw [if_neg hraw]
  exact withFile_fill hfill (fun cgroup h ↦ withFile_fill hfill (fun stat h ↦
    withFile_fill hfill (fun statm h ↦ h) h) h) h

/-- The files of a process decide what the sweep makes of it. -/
theorem ownFacts_congr {more : Procfs} (h : ∀ name, more.file pid name = procfs.file pid name) :
    ownFacts more pid = ownFacts procfs pid := by
  simp only [ownFacts, withFile, h]

/-! ## What may turn up -/

theorem mem_inodes {i : ℤ} :
    i ∈ inodes procfs pid ↔
      ∃ links, procfs.fds pid = .found links ∧ ∃ link ∈ links, socketOf link = some i := by
  unfold inodes socketInodes
  cases hfds : procfs.fds pid with
  | found links => simp [List.mem_filterMap]
  | _ => simp

theorem rows_subset (hfill : Fills procfs full) : rows procfs ⊆ rows full := by
  intro row hrow
  obtain ⟨table, htable, hrow⟩ := List.mem_flatMap.mp hrow
  obtain ⟨table', htable', hsame⟩ := forall₂_exists_left hfill.tables.flip htable
  rcases hsame with rfl | hhidden
  · exact List.mem_flatMap.mpr ⟨table, htable', hrow⟩
  · cases table with
    | found lines => cases hhidden
    | _ => cases hrow

theorem inodes_subset (hfill : Fills procfs full) : inodes procfs pid ⊆ inodes full pid := by
  intro i hi
  obtain ⟨links, hlinks, link, hlink, hsocket⟩ := mem_inodes.mp hi
  have hstays : ∀ {links'}, full.fds pid = .found links' → (∃ link ∈ links', socketOf link = some i) →
      i ∈ inodes full pid := fun hlinks' h ↦ mem_inodes.mpr ⟨_, hlinks', h⟩
  rcases hfill.fds pid with (hsame | hhidden) | ⟨old, links', hold, hlinks', hfills⟩
  · exact hstays (hsame ▸ hlinks) ⟨link, hlink, hsocket⟩
  · rw [hlinks] at hhidden
    cases hhidden
  · rw [hlinks] at hold
    obtain rfl := Reading.found.inj hold
    obtain ⟨link', hlink', hsame⟩ := forall₂_exists_left hfills.flip hlink
    refine hstays hlinks' ⟨link', hlink', ?_⟩
    rcases hsame with rfl | hhidden
    · exact hsocket
    · cases link with
      | found target => cases hhidden
      | _ => cases hsocket

/-- The sockets that turn up are at most as many as the links that could not be read. -/
theorem sockets_fill {links links' : List (Reading (List Char))}
    (h : List.Forall₂ Fill links links') :
    ∃ new : List ℤ, new.length ≤ links.countP Reading.hidden ∧
      ∀ i ∈ links'.filterMap socketOf, i ∈ links.filterMap socketOf ∨ i ∈ new := by
  induction h with
  | nil => exact ⟨[], le_rfl, by simp⟩
  | @cons link link' links links' hfill _ ih =>
      obtain ⟨new, hlength, hnew⟩ := ih
      cases hhidden : link.hidden with
      | false =>
          have hsame : link = link' := hfill.resolve_right (by simp [hhidden])
          subst hsame
          refine ⟨new, by rwa [List.countP_cons_of_neg (by simp [hhidden])], fun i hi ↦ ?_⟩
          obtain ⟨link', hlink', hsocket⟩ := List.mem_filterMap.mp hi
          rcases List.mem_cons.mp hlink' with rfl | hrest
          · exact .inl (List.mem_filterMap.mpr ⟨link', List.mem_cons_self, hsocket⟩)
          · refine (hnew i (List.mem_filterMap.mpr ⟨link', hrest, hsocket⟩)).imp (fun h ↦ ?_) id
            obtain ⟨old, hold, hold'⟩ := List.mem_filterMap.mp h
            exact List.mem_filterMap.mpr ⟨old, List.mem_cons_of_mem _ hold, hold'⟩
      | true =>
          refine ⟨(socketOf link').toList ++ new, ?_, fun i hi ↦ ?_⟩
          · rw [List.countP_cons_of_pos hhidden, List.length_append]
            have hone : (socketOf link').toList.length ≤ 1 := by
              cases socketOf link' <;> simp
            omega
          · obtain ⟨other, hother, hsocket⟩ := List.mem_filterMap.mp hi
            rcases List.mem_cons.mp hother with rfl | hrest
            · exact .inr (List.mem_append_left _ (by simp [hsocket]))
            · rcases hnew i (List.mem_filterMap.mpr ⟨other, hrest, hsocket⟩) with h | h
              · obtain ⟨old, hold, hold'⟩ := List.mem_filterMap.mp h
                exact .inl (List.mem_filterMap.mpr ⟨old, List.mem_cons_of_mem _ hold, hold'⟩)
              · exact .inr (List.mem_append_right _ h)

theorem inodes_fill (hfill : Fills procfs full) (hfds : (procfs.fds pid).hidden = false) :
    ∃ new : List ℤ, new.length ≤ hiddenLinks procfs pid ∧
      ∀ i ∈ inodes full pid, i ∈ inodes procfs pid ∨ i ∈ new := by
  rcases hfill.fds pid with (hsame | hhidden) | ⟨links, links', hlinks, hlinks', hfills⟩
  · refine ⟨[], Nat.zero_le _, fun i hi ↦ .inl ?_⟩
    rwa [inodes, socketInodes, ← hsame] at hi
  · rw [hfds] at hhidden
    cases hhidden
  · obtain ⟨new, hlength, hnew⟩ := sockets_fill hfills
    refine ⟨new, by rwa [hiddenLinks, hlinks], fun i hi ↦ ?_⟩
    rw [inodes, socketInodes, hlinks'] at hi
    rw [inodes, socketInodes, hlinks]
    exact hnew i hi

theorem eq_of_fill {α : Type} {xs ys : List (Reading α)} (h : List.Forall₂ Fill xs ys)
    (hseen : ∀ x ∈ xs, x.hidden = false) : xs = ys := by
  induction h with
  | nil => rfl
  | cons hfill _ ih =>
      rw [List.forall_mem_cons] at hseen
      rw [hfill.resolve_right (by simp [hseen.1]), ih hseen.2]

/-! ## Known to be abandoned -/

theorem fds_seen {row : Row} (h : Endpoint procfs pid row) : (procfs.fds pid).hidden = false := by
  obtain ⟨links, hlinks, -⟩ := mem_inodes.mp h.2.2
  rw [hlinks]
  rfl

theorem spawnerGone_fill (hfill : Fills procfs full) {ppid : ℤ}
    (hparent : ppid ≤ 1 ∨ (procfs.file ppid "cmdline").hidden = false)
    (h : SpawnerGone procfs ppid ∨ (procfs.file ppid "cmdline").hidden = true) :
    SpawnerGone full ppid := by
  rcases hparent with hinit | hseen
  · exact .inl hinit
  · have hgone := h.resolve_right (by simp [hseen])
    have hsame := (hfill.file ppid "cmdline").resolve_right (by simp [hseen])
    unfold SpawnerGone
    rwa [← hsame]

theorem abandoned_of_evident (h : Unspared globs procfs pid own) (hevident : Evident procfs pid own)
    (hfill : Fills procfs full) : Abandoned globs full pid := by
  obtain ⟨row, hrow⟩ := h.endpoint
  have hrows : rows full = rows procfs := by
    rw [rows, rows, eq_of_fill hfill.tables hevident.tables]
  refine ⟨⟨own, ownFacts_fill hfill h.facts, h.throwaway, h.notService,
    spawnerGone_fill hfill hevident.parent h.spawner⟩,
    ⟨row, rows_subset hfill hrow.1, hrow.2.1, inodes_subset hfill hrow.2.2⟩, ?_⟩
  rintro endpoint client ⟨hendpoint, hlistens, hin⟩ ⟨hclient, hconnected, hin'⟩ hport
  rw [hrows] at hendpoint hclient
  obtain ⟨new, hlength, hnew⟩ := @inodes_fill procfs full pid hfill (fds_seen hrow)
  have hsub : (({endpoint.inode, client.inode} : Finset ℤ) \ (inodes procfs pid).toFinset) ⊆
      new.toFinset := by
    intro i hi
    rw [Finset.mem_sdiff, List.mem_toFinset] at hi
    rw [List.mem_toFinset]
    refine (hnew i ?_).resolve_left hi.2
    rcases Finset.mem_insert.mp hi.1 with rfl | hi
    · exact hin
    · rw [Finset.mem_singleton.mp hi]
      exact hin'
  have hcard := (Finset.card_le_card hsub).trans (List.toFinset_card_le new)
  have hmore := hevident.links endpoint hendpoint client hclient hlistens hconnected hport
  omega

theorem selected_of_abandoned (h : Abandoned globs full pid) (hmem : pid ∈ full.pids)
    {browsers : List Browser} (hread : readBrowsers full = .ok browsers) :
    Selected globs full pid := by
  obtain ⟨⟨own, hown, hthrowaway, hservice, hspawner⟩, hendpoint, hclient⟩ := h
  exact selected_iff.mpr ⟨own, ⟨browsers, hread⟩, hmem, hown, hthrowaway, hservice, .inl hspawner,
    hendpoint, hclient⟩

/-! ## Unrelated programs -/

theorem selected_of_joined {more : Procfs} (hjoined : Joined procfs more pid)
    (h : Selected globs more pid) : Selected globs procfs pid := by
  obtain ⟨own, hunspared⟩ := selected_iff.mp h
  have hinodes : inodes more pid = inodes procfs pid := by
    rw [inodes, inodes, socketInodes, socketInodes, hjoined.fds]
  have hkept : ∀ row ∈ rows more, row.inode ∈ inodes more pid → row ∈ rows procfs := by
    intro row hrow hin
    rw [hinodes] at hin
    exact (hjoined.foreign row hrow).resolve_right (not_not.mpr hin)
  refine selected_iff.mpr ⟨own, ?_, hjoined.mem, ?_, hunspared.throwaway, hunspared.notService, ?_,
    ?_, ?_⟩
  · refine swept_iff.mpr fun q hq ↦ ?_
    rw [← ownFacts_congr (hjoined.files q hq)]
    exact swept_iff.mp hunspared.swept q (hjoined.pids hq)
  · rw [← ownFacts_congr (hjoined.files pid hjoined.mem)]
    exact hunspared.facts
  · rcases hjoined.others own.ppid "cmdline" with habsent | hsame
    · exact .inl (.inr (.inl habsent))
    · have hspawner := hunspared.spawner
      rwa [SpawnerGone, hsame] at hspawner
  · obtain ⟨row, hrow, hlistens, hin⟩ := hunspared.endpoint
    exact ⟨row, hkept row hrow hin, hlistens, hinodes ▸ hin⟩
  · rintro endpoint client ⟨hendpoint, hlistens, hin⟩ ⟨hclient, hconnected, hin'⟩
    exact hunspared.noClient endpoint client
      ⟨hjoined.kept endpoint hendpoint, hlistens, hinodes ▸ hin⟩
      ⟨hjoined.kept client hclient, hconnected, hinodes ▸ hin'⟩

/-! ## What the unread could hold -/

theorem forall₂_fill_refl {α : Type} (xs : List (Reading α)) : List.Forall₂ Fill xs xs :=
  List.forall₂_same.mpr fun _ _ ↦ .inl rfl

/-- A parent whose command line cannot be read may be alive. -/
theorem evident_parent (h : ∀ full, Fills procfs full → Abandoned globs full pid)
    (hfacts : ownFacts procfs pid = .ok (some own)) :
    own.ppid ≤ 1 ∨ (procfs.file own.ppid "cmdline").hidden = false := by
  by_contra hparent
  obtain ⟨hinit, hhidden⟩ := not_or.mp hparent
  rw [Bool.not_eq_false] at hhidden
  let full : Procfs := { procfs with
    file := fun q name ↦
      if q = own.ppid ∧ name = "cmdline" then .found "bun".toList else procfs.file q name }
  have hfill : Fills procfs full := by
    refine ⟨rfl, fun q name ↦ ?_, fun q ↦ .inl (.inl rfl), forall₂_fill_refl _⟩
    by_cases hsame : q = own.ppid ∧ name = "cmdline"
    · obtain ⟨rfl, rfl⟩ := hsame
      exact .inr hhidden
    · exact .inl (if_neg hsame).symm
  obtain ⟨own', hown', -, -, hspawner⟩ := (h full hfill).own
  rw [ownFacts_fill hfill hfacts] at hown'
  obtain rfl := Option.some.inj (Except.ok.inj hown')
  have hfile : full.file own.ppid "cmdline" = .found "bun".toList := if_pos ⟨rfl, rfl⟩
  rw [SpawnerGone, hfile] at hspawner
  rcases hspawner with hone | habsent | ⟨raw, hraw, hmanager⟩
  · exact hinit hone
  · cases habsent
  · obtain rfl := Reading.found.inj hraw
    exact absurd hmanager (by decide +kernel)

theorem exists_fields {row : Row} (h : row ∈ rows procfs) :
    ∃ fields, parseRow fields = some row := by
  obtain ⟨table, -, hrow⟩ := List.mem_flatMap.mp h
  cases table with
  | found lines =>
      obtain ⟨fields, -, hfields⟩ := List.mem_filterMap.mp hrow
      exact ⟨fields, hfields⟩
  | _ => cases hrow

theorem parseRow_spec {fields : List (List Char)} {row : Row} (h : parseRow fields = some row) :
    (∃ address, fields[1]? = some address ∧ portOf address = some row.localPort) ∧
      ∃ inode, fields[9]? = some inode ∧ readInt 10 inode = some row.inode := by
  simp only [parseRow, numberAt, Option.bind_eq_bind, Option.bind_eq_some_iff, Option.pure_def,
    Option.some.injEq] at h
  obtain ⟨_, -, localPort, ⟨address, haddress, hport⟩, _, -, i, ⟨inode, hinode, hi⟩, _, -, rfl⟩ := h
  exact ⟨⟨address, haddress, hport⟩, inode, hinode, hi⟩

/-- The line of a client of the socket that a line is about. -/
def clientLine (address inode : List Char) : List (List Char) :=
  [[], address, "0:1".toList, TCP_ESTABLISHED.toList, [], [], [], [], [], inode]

theorem parseRow_clientLine {address inode : List Char} {port i : ℤ}
    (hport : portOf address = some port) (hinode : readInt 10 inode = some i) :
    parseRow (clientLine address inode) = some ⟨i, port, 1, TCP_ESTABLISHED.toList⟩ := by
  have hpeer : portOf "0:1".toList = some 1 := by decide +kernel
  have hlength : 10 ≤ (clientLine address inode).length := le_rfl
  rw [parseRow, guard, if_pos hlength]
  change (portOf address >>= fun localPort ↦ portOf "0:1".toList >>= fun peerPort ↦
    readInt 10 inode >>= fun inode ↦ some (Row.mk inode localPort peerPort TCP_ESTABLISHED.toList)) =
      _
  rw [hport, hpeer, hinode]
  rfl

/-- A table that cannot be read may hold a client of any endpoint. -/
theorem evident_tables (h : ∀ full, Fills procfs full → Abandoned globs full pid) {row : Row}
    (hrow : Endpoint procfs pid row) : ∀ table ∈ procfs.tables, table.hidden = false := by
  intro table htable
  by_contra hhidden
  rw [Bool.not_eq_false] at hhidden
  obtain ⟨before, after, hsplit⟩ := List.append_of_mem htable
  obtain ⟨fields, hfields⟩ := exists_fields hrow.1
  obtain ⟨⟨address, -, hport⟩, inode, -, hinode⟩ := parseRow_spec hfields
  let full : Procfs :=
    { procfs with tables := before ++ .found [clientLine address inode] :: after }
  have hfill : Fills procfs full := by
    refine ⟨rfl, fun q name ↦ .inl rfl, fun q ↦ .inl (.inl rfl), ?_⟩
    rw [hsplit]
    exact List.rel_append (forall₂_fill_refl before) (.cons (.inr hhidden) (forall₂_fill_refl after))
  have hclient : Client full pid ⟨row.inode, row.localPort, 1, TCP_ESTABLISHED.toList⟩ := by
    refine ⟨?_, rfl, hrow.2.2⟩
    refine List.mem_flatMap.mpr ⟨.found [clientLine address inode],
      List.mem_append_right _ List.mem_cons_self, ?_⟩
    rw [tableRows, List.filterMap_cons, parseRow_clientLine hport hinode]
    exact List.mem_cons_self
  exact (h full hfill).noClient row _ ⟨rows_subset hfill hrow.1, hrow.2⟩ hclient rfl

theorem socketOf_link (text : List Char) :
    socketOf (.found ("socket:[".toList ++ (text ++ "]".toList))) = readInt 10 text := by
  have hprefix : startsWith ("socket:[".toList ++ (text ++ "]".toList)) "socket:[" = true :=
    List.isPrefixOf_iff_prefix.mpr (List.prefix_append _ _)
  have hdrop : ("socket:[".toList ++ (text ++ "]".toList)).drop "socket:[".length =
      text ++ [']'] := List.drop_left
  rw [socketOf, if_pos hprefix, hdrop, List.dropLast_concat]

/-- Links that cannot be read may lead to any sockets. -/
theorem exists_links {links : List (Reading (List Char))} {new : List ℤ}
    (hlength : new.length ≤ links.countP Reading.hidden)
    (htext : ∀ i ∈ new, ∃ text, readInt 10 text = some i) :
    ∃ links', List.Forall₂ Fill links links' ∧ ∀ i ∈ new, ∃ link ∈ links', socketOf link = some i := by
  induction links generalizing new with
  | nil =>
      obtain rfl := List.length_eq_zero_iff.mp (Nat.le_zero.mp hlength)
      exact ⟨[], .nil, by simp⟩
  | cons link links ih =>
      cases hhidden : link.hidden with
      | false =>
          rw [List.countP_cons_of_neg (by simp [hhidden])] at hlength
          obtain ⟨links', hfills, hnew⟩ := ih hlength htext
          refine ⟨link :: links', .cons (.inl rfl) hfills, fun i hi ↦ ?_⟩
          obtain ⟨found, hfound, hsocket⟩ := hnew i hi
          exact ⟨found, List.mem_cons_of_mem _ hfound, hsocket⟩
      | true =>
          rw [List.countP_cons_of_pos hhidden] at hlength
          cases new with
          | nil => exact ⟨link :: links, forall₂_fill_refl _, by simp⟩
          | cons i new =>
              rw [List.forall_mem_cons] at htext
              obtain ⟨⟨text, htext⟩, hrest⟩ := htext
              obtain ⟨links', hfills, hnew⟩ := ih (Nat.le_of_succ_le_succ hlength) hrest
              let found : Reading (List Char) :=
                .found ("socket:[".toList ++ (text ++ "]".toList))
              refine ⟨found :: links', .cons (.inr hhidden) hfills, fun j hj ↦ ?_⟩
              rcases List.mem_cons.mp hj with rfl | hj
              · exact ⟨_, List.mem_cons_self, (socketOf_link text).trans htext⟩
              · obtain ⟨found, hfound, hsocket⟩ := hnew j hj
                exact ⟨found, List.mem_cons_of_mem _ hfound, hsocket⟩

theorem evident_links (h : ∀ full, Fills procfs full → Abandoned globs full pid) {row : Row}
    (hrow : Endpoint procfs pid row) : ∀ endpoint ∈ rows procfs, ∀ client ∈ rows procfs,
    endpoint.listens = true → client.connected = true → endpoint.localPort = client.localPort →
      hiddenLinks procfs pid <
        (({endpoint.inode, client.inode} : Finset ℤ) \ (inodes procfs pid).toFinset).card := by
  intro endpoint hendpoint client hclient hlistens hconnected hport
  by_contra hfew
  obtain ⟨links, hlinks, -⟩ := mem_inodes.mp hrow.2.2
  rw [not_lt, hiddenLinks, hlinks, ← Finset.length_toList] at hfew
  obtain ⟨links', hfills, hnew⟩ := exists_links hfew (by
    intro i hi
    have hi := (Finset.mem_sdiff.mp (Finset.mem_toList.mp hi)).1
    rcases Finset.mem_insert.mp hi with rfl | hi
    · obtain ⟨fields, hfields⟩ := exists_fields hendpoint
      obtain ⟨-, text, -, htext⟩ := parseRow_spec hfields
      exact ⟨text, htext⟩
    · rw [Finset.mem_singleton.mp hi]
      obtain ⟨fields, hfields⟩ := exists_fields hclient
      obtain ⟨-, text, -, htext⟩ := parseRow_spec hfields
      exact ⟨text, htext⟩)
  let full : Procfs :=
    { procfs with fds := fun q ↦ if q = pid then .found links' else procfs.fds q }
  have hfill : Fills procfs full := by
    refine ⟨rfl, fun q name ↦ .inl rfl, fun q ↦ ?_, forall₂_fill_refl _⟩
    by_cases hsame : q = pid
    · subst hsame
      exact .inr ⟨links, links', hlinks, if_pos rfl, hfills⟩
    · exact .inl (.inl (if_neg hsame).symm)
  have hin : ∀ i ∈ ({endpoint.inode, client.inode} : Finset ℤ), i ∈ inodes full pid := by
    intro i hi
    by_cases hmine : i ∈ inodes procfs pid
    · exact inodes_subset hfill hmine
    · obtain ⟨link, hlink, hsocket⟩ := hnew i (Finset.mem_toList.mpr
        (Finset.mem_sdiff.mpr ⟨hi, fun h ↦ hmine (List.mem_toFinset.mp h)⟩))
      exact mem_inodes.mpr ⟨links', if_pos rfl, link, hlink, hsocket⟩
  exact (h full hfill).noClient endpoint client
    ⟨rows_subset hfill hendpoint, hlistens, hin _ (by simp)⟩
    ⟨rows_subset hfill hclient, hconnected, hin _ (by simp)⟩ hport

/-- The selection of a process fails closed exactly when the sweep has read what
could speak for a browser that nothing else spares. -/
theorem fails_closed_iff :
    FailsClosed globs procfs pid ↔
      ∀ own, Unspared globs procfs pid own → Evident procfs pid own := by
  constructor
  · intro h own hunspared
    have hknown : ∀ full, Fills procfs full → Abandoned globs full pid := fun full hfill ↦
      (h.known (selected_iff.mpr ⟨own, hunspared⟩) full hfill).1
    obtain ⟨row, hrow⟩ := hunspared.endpoint
    exact ⟨evident_parent hknown hunspared.facts, evident_tables hknown hrow,
      evident_links hknown hrow⟩
  · intro h
    refine ⟨fun hselected full hfill ↦ ?_, fun more ↦ selected_of_joined⟩
    obtain ⟨own, hunspared⟩ := selected_iff.mp hselected
    have habandoned := abandoned_of_evident hunspared (h own hunspared) hfill
    refine ⟨habandoned, fun browsers hread ↦ ?_⟩
    exact selected_of_abandoned habandoned (hfill.pids ▸ hunspared.mem) hread

/-- A browser whose parent, process 5, has this command line. -/
def drivenBox (parent : Reading (List Char)) : Procfs where
  pids := [5, 10]
  file pid name :=
    if pid = 10 then .found (
      if name = "comm" then "chrome\n".toList
      else if name = "cmdline" then
        "/opt/google/chrome/chrome --user-data-dir=/tmp/puppeteer_dev_chrome_profile-x".toList
      else if name = "cgroup" then "0::/user.slice/user-1004.slice/session-3.scope\n".toList
      else if name = "stat" then
        "10 (chrome) S 5 10 10 0 -1 0 0 0 0 0 0 0 0 0 20 0 1 0 5000 0\n".toList
      else "100 20 3\n".toList)
    else if pid = 5 ∧ name = "cmdline" then parent
    else if pid = 5 ∧ name = "comm" then .found "bun\n".toList
    else .absent
  fds pid := if pid = 10 then .found [.found "socket:[77]".toList] else .denied
  tables := [.found [["0:".toList, "0100007F:A1CB".toList, "00000000:0000".toList, "0A".toList,
    [], [], [], [], [], "77".toList]], .absent]

def selectedPids (procfs : Procfs) : Option (List ℤ) :=
  (readBrowsers procfs).toOption.map fun browsers ↦
    (selectOrphans DEFAULT_PROFILE_GLOBS browsers).map Browser.pid

theorem selectedPids_iff {pids : List ℤ} (h : selectedPids procfs = some pids) :
    Selected DEFAULT_PROFILE_GLOBS procfs pid ↔ pid ∈ pids := by
  obtain ⟨browsers, hbrowsers, rfl⟩ := Option.map_eq_some_iff.mp h
  have hread : readBrowsers procfs = .ok browsers := by
    cases hresult : readBrowsers procfs with
    | ok found =>
        rw [hresult] at hbrowsers
        rw [Option.some.inj hbrowsers]
    | error fault =>
        rw [hresult] at hbrowsers
        cases hbrowsers
  constructor
  · rintro ⟨found, hfound, browser, hbrowser, rfl⟩
    rw [hread] at hfound
    obtain rfl := Except.ok.inj hfound
    exact List.mem_map_of_mem hbrowser
  · intro hmem
    obtain ⟨browser, hbrowser, rfl⟩ := List.mem_map.mp hmem
    exact ⟨browsers, hread, browser, hbrowser, rfl⟩

/-- The browser of a live parent is selected as soon as the command line of that
parent cannot be read. -/
theorem denied_parent_selected :
    Fills (drivenBox .denied) (drivenBox (.found "bun run src/index.ts".toList)) ∧
      Selected DEFAULT_PROFILE_GLOBS (drivenBox .denied) 10 ∧
      ¬Selected DEFAULT_PROFILE_GLOBS (drivenBox (.found "bun run src/index.ts".toList)) 10 ∧
      ¬FailsClosed DEFAULT_PROFILE_GLOBS (drivenBox .denied) 10 := by
  have hfills : Fills (drivenBox .denied) (drivenBox (.found "bun run src/index.ts".toList)) := by
    refine ⟨rfl, fun pid name ↦ ?_, fun pid ↦ .inl (.inl rfl), forall₂_fill_refl _⟩
    unfold Fill drivenBox
    dsimp only
    split
    · exact .inl rfl
    · split
      · exact .inr rfl
      · exact .inl rfl
  have hseen : selectedPids (drivenBox .denied) = some [10] := by decide +kernel
  have hfull : selectedPids (drivenBox (.found "bun run src/index.ts".toList)) = some [] := by
    decide +kernel
  have hselected : Selected DEFAULT_PROFILE_GLOBS (drivenBox .denied) 10 :=
    (selectedPids_iff hseen).mpr (List.mem_singleton_self _)
  have hspared : ¬Selected DEFAULT_PROFILE_GLOBS
      (drivenBox (.found "bun run src/index.ts".toList)) 10 := by
    rw [selectedPids_iff hfull]
    exact List.not_mem_nil
  refine ⟨hfills, hselected, hspared, fun h ↦ hspared ?_⟩
  obtain ⟨browsers, hbrowsers, -⟩ := Option.map_eq_some_iff.mp hfull
  have hread : ∃ browsers,
      readBrowsers (drivenBox (.found "bun run src/index.ts".toList)) = .ok browsers := by
    cases hresult : readBrowsers (drivenBox (.found "bun run src/index.ts".toList)) with
    | ok found => exact ⟨found, rfl⟩
    | error fault =>
        rw [hresult] at hbrowsers
        cases hbrowsers
  exact (h.known hselected _ hfills).2 _ hread.choose_spec

end RemoteDevbox.Box.Reap
