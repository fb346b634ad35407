import ContentAddressed.Proofs.Medium.Local
import ContentAddressed.Proofs.Medium.Remote
import ContentAddressed.Proofs.Result
import ContentAddressed.Proofs.Store.History
import ContentAddressed.Store.Open

/-!
# Reads that fall through caches

A read asks the media from the innermost one outwards, and the first that does not miss the name
decides: with its bytes, or with its refusal. A disk refuses names that no file of its directory may
have, so behind a disk such names are not read, wherever else they are.
-/

namespace ContentAddressed

namespace Backing

theorem keptByReading_kind : KeptByReading kind := by
  intro b name
  cases b <;> rfl

theorem keptByWriting_kind : KeptByWriting kind := by
  intro b name bs
  cases b <;> rfl

theorem exists_remote {b : Backing} (h : b.kind = "remote") : ∃ r, b = remote r := by
  cases b <;> simp [kind, Medium.kind] at h ⊢

theorem exists_disk {b : Backing} (h : b.kind = "disk") : ∃ d, b = disk d := by
  cases b <;> simp [kind, Medium.kind] at h ⊢

theorem exists_memory {b : Backing} (h : b.kind = "memory") : ∃ m, b = memory m := by
  cases b <;> simp [kind, Medium.kind] at h ⊢

end Backing

namespace Store

/-! ## The medium that decides -/

section Misses

variable {μ : Type} [Medium μ] {name : String}

def Misses (m : μ) (name : String) : Prop :=
  ∃ missing, (Medium.get m name : Outcome μ StoredBytes).1 = .error (.noSuchBlock missing)

theorem retrieve_of_missing {m : μ} {j : List String} {c : Store μ} {missing : String}
    (h : (c.retrieve name).1 = .error (.noSuchBlock missing)) :
    ((cached m j c).retrieve name).1 = (Medium.get m name : Outcome μ StoredBytes).1 := by
  have hc : c.retrieve name = (.error (.noSuchBlock missing), (c.retrieve name).2) :=
    Prod.ext h rfl
  rw [retrieve, hc]

theorem retrieve_of_found {m : μ} {j : List String} {c : Store μ}
    (h : ∀ missing, (c.retrieve name).1 ≠ .error (.noSuchBlock missing)) :
    ((cached m j c).retrieve name).1 = (c.retrieve name).1 := by
  rw [retrieve]
  split <;> rename_i hc <;> rw [hc] at h ⊢
  next missing c' => exact absurd rfl (h missing)

theorem exists_retrieve_of_misses {s : Store μ} (h : ∀ m ∈ s.media, Misses m name) :
    ∃ missing, (s.retrieve name).1 = .error (.noSuchBlock missing) := by
  induction s with
  | base m j => exact h m (by simp)
  | cached m j c ih =>
    rw [media_cached, List.forall_mem_cons] at h
    obtain ⟨missing, hmissing⟩ := ih h.2
    rw [retrieve_of_missing hmissing]
    exact h.1

/-- The innermost medium that does not miss a name decides what is read. -/
theorem retrieve_eq_of_misses {s : Store μ} {outer inner : List μ} {m : μ}
    (hs : s.media = outer ++ m :: inner) (hinner : ∀ t ∈ inner, Misses t name)
    (hm : ¬ Misses m name) :
    (s.retrieve name).1 = (Medium.get m name : Outcome μ StoredBytes).1 := by
  induction s generalizing outer with
  | base m' j =>
    rcases List.cons_eq_append_iff.mp hs with ⟨rfl, h⟩ | ⟨rest, rfl, h⟩
    · cases h
      rfl
    · simp at h
  | cached m' j c ih =>
    rcases List.cons_eq_append_iff.mp hs with ⟨rfl, h⟩ | ⟨rest, rfl, h⟩
    · obtain ⟨rfl, rfl⟩ := List.cons.inj h
      obtain ⟨missing, hmissing⟩ := exists_retrieve_of_misses hinner
      exact retrieve_of_missing hmissing
    · have hcache := ih h
      rw [retrieve_of_found fun missing hmissing => hm ⟨missing, hcache ▸ hmissing⟩, hcache]

end Misses

/-! ## Memory over a disk over a remote -/

section Remote

variable {name : String}

theorem misses_memory {m : Memory} (h : m.table.contains name = false) :
    Misses (Backing.memory m) name := by
  have hnone : m.table.find? name = none := by simpa [NameTable.contains] using h
  refine ⟨name, ?_⟩
  change (m.get name).1 = _
  simp only [Memory.get, hnone]

theorem misses_disk {d : Disk} (hname : Disk.Writable name)
    (h : d.folder.holds (.text name) = false) : Misses (Backing.disk d) name := by
  refine ⟨name, ?_⟩
  change d.read name = _
  rw [Disk.read, hname.1, if_neg hname.2]
  rw [Folder.holds] at h
  split at h
  · next e he =>
    rw [he]
    cases e with
    | folder => simp [Entry.isEmpty] at h
    | file bs =>
      obtain rfl : bs = [] := by simpa [Entry.isEmpty] using h
      rfl
  · next hnone =>
    rw [hnone]
    rfl

theorem get_disk_of_not_accepts (h : Disk.accepts name = false) (d : Disk) :
    (Medium.get (Backing.disk d) name).1 = .error (.invalidArgument (.fileName name)) := by
  change d.read name = _
  simp only [Disk.read, Disk.checkName, h]
  rfl

theorem exists_media_of_openChain {config : StoreConfig} {peer : Peer} {fs fs' : FileSystem}
    {s : Store Backing} {directory : String} {remote : RemoteConfig}
    (hdirectory : config.directory = some directory) (hremote : config.remote = some remote)
    (hopen : openChain config peer fs = .ok (s, fs')) (calls : List StoreCall) :
    ∃ r d m, (History.run ⟨s, []⟩ calls).chain.media =
      [Backing.remote r, Backing.disk d, Backing.memory m] := by
  have hkinds : (History.run ⟨s, []⟩ calls).chain.media.map Backing.kind =
      ["remote", "disk", "memory"] := by
    rw [History.media_run Backing.keptByReading_kind Backing.keptByWriting_kind]
    rw [openChain, hdirectory, hremote] at hopen
    obtain ⟨⟨near, fs₁⟩, hnear, hopen⟩ := Result.bind_eq_ok_iff.mp hopen
    obtain ⟨⟨d, fs₂⟩, -, hnear⟩ := Result.bind_eq_ok_iff.mp hnear
    cases hnear
    cases hopen
    rfl
  generalize (History.run ⟨s, []⟩ calls).chain.media = media at hkinds
  obtain ⟨far, media, rfl, hfar, hkinds⟩ := List.map_eq_cons_iff.mp hkinds
  obtain ⟨middle, media, rfl, hmiddle, hkinds⟩ := List.map_eq_cons_iff.mp hkinds
  obtain ⟨near, rfl, hnear⟩ := List.map_eq_singleton_iff.mp hkinds
  obtain ⟨r, rfl⟩ := Backing.exists_remote hfar
  obtain ⟨d, rfl⟩ := Backing.exists_disk hmiddle
  obtain ⟨m, rfl⟩ := Backing.exists_memory hnear
  exact ⟨r, d, m, rfl⟩

/-- What is read through memory and a disk that do not have a name, where the server has it. -/
theorem retrieve_of_downloaded {s : Store Backing} {r : Remote} {d : Disk} {m : Memory}
    {answer : Http.Response} (hs : s.media = [.remote r, .disk d, .memory m])
    (hprintable : Ascii.printable name) (hshort : name.toList.length ≤ 255)
    (hmemory : m.table.contains name = false) (hdisk : d.folder.holds (.text name) = false)
    (hask : (r.peer.ask (.download (r.downloadUrl name))).1 = .ok answer)
    (hstatus : answer.status = 200)
    (hkind : Ascii.equalsIgnoringCase (Remote.essence answer) Http.octetStream) :
    (s.retrieve name).1 = if Disk.accepts name then .ok ⟨answer.body, false⟩
      else .error (.invalidArgument (.fileName name)) := by
  have hmiss : Misses (Backing.memory m) name := misses_memory hmemory
  by_cases haccepts : Disk.accepts name
  · have hsize : name.utf8ByteSize ≤ FileName.limit := by
      rw [Utf8.utf8ByteSize_printable hprintable]
      exact hshort
    have hdisk := misses_disk (Disk.writable_of_accepts haccepts hsize) hdisk
    have hremote : (Medium.get (Backing.remote r) name).1 = .ok ⟨answer.body, false⟩ :=
      (Remote.get_of_ask hask).trans (Remote.acceptDownload_eq_ok hstatus hkind)
    have hfound : ¬ Misses (Backing.remote r) name := by
      rintro ⟨missing, hmissing⟩
      cases hremote.symm.trans hmissing
    rw [retrieve_eq_of_misses (show s.media = [] ++ _ from hs) (by simp [hmiss, hdisk]) hfound,
      hremote, if_pos haccepts]
  · have hrefused := get_disk_of_not_accepts (by simpa using haccepts : _ = false) d
    have hfound : ¬ Misses (Backing.disk d) name := by
      rintro ⟨missing, hmissing⟩
      cases hrefused.symm.trans hmissing
    rw [retrieve_eq_of_misses (show s.media = [Backing.remote r] ++ _ from hs) (by simp [hmiss])
      hfound, hrefused, if_neg haccepts]

end Remote

/-- A block behind caches that do not have it. A chain that is opened with a directory and a remote
is memory over a disk over the remote, and stays so. Through it, a name that memory and disk do not
have is read from the server, if the disk follows its own naming rules for it; otherwise the disk
refuses the name. In any chain, the innermost medium that does not miss a name decides what is
read. -/
theorem retrieve_through_caches :
    (∀ {config : StoreConfig} {peer : Peer} {fs fs' : FileSystem} {s : Store Backing}
      {directory : String} {remote : RemoteConfig}, config.directory = some directory →
      config.remote = some remote → openChain config peer fs = .ok (s, fs') →
      ∀ calls, ∃ r d m, (History.run ⟨s, []⟩ calls).chain.media =
        [Backing.remote r, Backing.disk d, Backing.memory m]) ∧
    (∀ {s : Store Backing} {r : Remote} {d : Disk} {m : Memory} {name : String}
      {answer : Http.Response}, s.media = [.remote r, .disk d, .memory m] → name ≠ "" →
      Ascii.printable name → name.toList.length ≤ 255 → m.table.contains name = false →
      d.folder.holds (.text name) = false →
      (r.peer.ask (.download (r.downloadUrl name))).1 = .ok answer → answer.status = 200 →
      Ascii.equalsIgnoringCase (Remote.essence answer) Http.octetStream →
      (s.retrieve name).1 = if Disk.accepts name then .ok ⟨answer.body, false⟩
        else .error (.invalidArgument (.fileName name))) ∧
    ∀ {μ : Type} [Medium μ] {s : Store μ} {name : String} {outer inner : List μ} {m : μ},
      s.media = outer ++ m :: inner → (∀ t ∈ inner, Misses t name) → ¬ Misses m name →
      (s.retrieve name).1 = (Medium.get m name : Outcome μ StoredBytes).1 :=
  ⟨exists_media_of_openChain, fun hs _ => retrieve_of_downloaded hs, retrieve_eq_of_misses⟩

def remoteConfig : StoreConfig :=
  { directory := some "blocks"
    remote := some ⟨"http://blocks.example/blocks", "http://blocks.example/upload", {}, 30⟩ }

/-- A server that gives one block to whoever asks first. -/
def oneBlock : Peer := .scripted [⟨200, some Http.octetStream, [1]⟩]

/-- Two chains in which a disk hides what is behind it: the server has a block under a name with a
slash, and so has a memory behind a disk whose cache has lost it. -/
theorem slash_hides_block :
    (∃ s fs r d m, openChain remoteConfig oneBlock {} = .ok (s, fs) ∧
      s.media = [.remote r, .disk d, .memory m] ∧
      Ascii.printable "a/b" ∧ m.table.contains "a/b" = false ∧
      d.folder.holds (.text "a/b") = false ∧
      (r.peer.ask (.download (r.downloadUrl "a/b"))).1 =
        .ok ⟨200, some Http.octetStream, [1]⟩ ∧
      (s.retrieve "a/b").1 = .error (.invalidArgument (.fileName "a/b"))) ∧
    ∃ s : Store Backing,
      s.media = [.memory ⟨[("a/b", [1])]⟩, .disk { path := "disk" }, .faulty {}] ∧
      (Medium.get (Backing.memory ⟨[("a/b", [1])]⟩) "a/b").1 = .ok ⟨[1], false⟩ ∧
      Misses (Backing.faulty {}) "a/b" ∧
      (s.retrieve "a/b").1 = .error (.invalidArgument (.fileName "a/b")) := by
  constructor
  · exact ⟨_, _, _, _, _, rfl, rfl, by decide, rfl, rfl, rfl, rfl⟩
  · exact ⟨cached (.memory ⟨[("a/b", [1])]⟩) [] (cached (.disk { path := "disk" }) ["a/b"]
      (base (.faulty {}) [])), rfl, rfl, ⟨_, rfl⟩, rfl⟩

/-- A block of the server, and one that was written to the chain, under names that the disk may
have. -/
theorem retrieve_through_caches_two_blocks :
    ∃ s fs s', openChain remoteConfig oneBlock {} = .ok (s, fs) ∧
      (History.run ⟨s, []⟩ [.store 0 "b" [2]]).chain = s' ∧
      (∃ r d m, s'.media = [.remote r, .disk d, .memory m]) ∧
      (s'.retrieve "a").1 = .ok ⟨[1], false⟩ ∧ (s'.retrieve "b").1 = .ok ⟨[2], false⟩ := by
  obtain ⟨hopened, hdownloaded, hinnermost⟩ := retrieve_through_caches
  refine ⟨_, _, _, rfl, rfl, ?_, ?_, ?_⟩
  · have hopen : openChain remoteConfig oneBlock {} = .ok (_, _) := rfl
    exact hopened rfl rfl hopen _
  · exact (hdownloaded rfl (by decide) (by decide) (by decide) rfl rfl rfl rfl (by decide)).trans
      (if_pos (by decide))
  · refine (hinnermost (show _ = [_, _] ++ _ :: [] from rfl) (by simp) ?_).trans rfl
    rintro ⟨missing, hmissing⟩
    cases hmissing

end Store

end ContentAddressed
