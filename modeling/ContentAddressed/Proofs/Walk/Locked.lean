import ContentAddressed.Proofs.Block.Sealed
import ContentAddressed.Proofs.Store.Fetch
import ContentAddressed.Proofs.Walk.DepthLimit
import ContentAddressed.Proofs.Walk.Trace

/-!
# What a walk leaves closed

A node is opened by the first link to it that a walk meets, or with the key that the keychain has
for it. The keys of later links to the node are not tried. Where all links to a node carry the same
parameters this makes no difference, nor does the order in which blocks list their links.
-/

namespace ContentAddressed

section Link

variable {l k : Link} {keys : Option Keychain} {bs : Bytes} {b : Block}

theorem Link.digestAlgorithm_eq_of_target (h : l.target = k.target) :
    l.digestAlgorithm = k.digestAlgorithm := by
  simp only [Link.digestAlgorithm, Link.fingerprint?, h]

theorem Link.eq_of_target (h : l.target = k.target) (hd : l.decryption = k.decryption) : l = k := by
  cases l
  cases k
  obtain rfl : _ = _ := h
  obtain rfl : _ = _ := hd
  rfl

/-- What a keychain opens depends on the target of a link, not on the key that the link carries. -/
theorem Keychain.openLink?_eq_of_target (h : l.target = k.target) (c : Keychain) :
    c.openLink? l bs = c.openLink? k bs := by
  simp only [Keychain.openLink?, Link.fingerprint?, Link.withKey, h]

theorem Link.hasKey_of_decrypt (h : l.decrypt bs = .ok b) : l.hasKey := by
  obtain ⟨d, hd, hkey, -⟩ := Link.decrypt_eq_ok_iff.mp h
  rw [Option.mem_def] at hd
  simpa [Link.hasKey, hd] using hkey

theorem Link.openBytes?_of_decrypt (hparse : ∀ b, Block.parse l.digestAlgorithm bs ≠ .ok b)
    (h : l.decrypt bs = .ok b) : l.openBytes? keys bs = some b := by
  rw [openBytes?]
  split
  · next hb => exact absurd hb (hparse _)
  · simp only [if_pos (hasKey_of_decrypt h), h]
    rfl

/-- Bytes stay closed if they are no frame, and neither the key of the link nor that of the keychain
opens them. -/
theorem Link.openBytes?_eq_none_iff :
    l.openBytes? keys bs = none ↔ (∀ b, Block.parse l.digestAlgorithm bs ≠ .ok b) ∧
      (∀ b, l.decrypt bs ≠ .ok b) ∧ ∀ c ∈ keys, c.openLink? l bs = none := by
  have hown : (if l.hasKey then (l.decrypt bs).toOption else none) = (l.decrypt bs).toOption := by
    split
    · rfl
    · next hkey =>
      cases hb : l.decrypt bs with
      | error e => rfl
      | ok b => exact absurd (hasKey_of_decrypt hb) hkey
  rw [openBytes?]
  cases hparse : Block.parse l.digestAlgorithm bs with
  | ok b => simp
  | error e =>
    simp only [hown]
    cases hb : l.decrypt bs with
    | ok b => simp [Except.toOption]
    | error e => simp [Except.toOption, Option.bind_eq_none_iff]

end Link

def Link.found (keys : Option Keychain) (l : Link) (v : StoredBytes) : Found :=
  ((l.openBytes? keys v.bytes).map Found.block).getD (.locked v)

theorem Link.found_of_openBytes? {keys : Option Keychain} {l : Link} {v : StoredBytes} {b : Block}
    (h : l.openBytes? keys v.bytes = some b) : l.found keys v = .block b := by
  rw [Link.found, h]
  rfl

theorem Link.found_eq_locked_iff {keys : Option Keychain} {l : Link} {v u : StoredBytes} :
    l.found keys v = .locked u ↔ l.openBytes? keys v.bytes = none ∧ v = u := by
  rw [Link.found]
  cases l.openBytes? keys v.bytes <;> simp

namespace LinkGraph

variable {g g' : LinkGraph} {change : Link → Link} {l : Link} {n : Nat}

/-- Where all links to a name carry the same parameters, they open it alike. -/
theorem uniform_of_decryption_eq (h : ∀ n l m k, g.Way n l → g.Way m k → l.target = k.target →
    l.decryption = k.decryption) : g.Uniform := by
  intro n l m k hl hk htarget
  obtain rfl := Link.eq_of_target htarget (h n l m k hl hk htarget)
  cases g.opens? l with
  | none => exact .none
  | some b => exact .some (by simp [Block.same])

theorem isSome_eq_of_rel {same : Block → Block → Prop} {o o' : Option Block}
    (h : Option.Rel same o o') : o.isSome = o'.isSome := by
  cases h with
  | none => rfl
  | some => rfl

/-- Two graphs with the same ways, but for the order in which blocks list their links, and for the
names that change with it. -/
structure Reordered (change : Link → Link) (g g' : LinkGraph) : Prop where
  root : g'.root = change g.root
  opens : ∀ n l, g.Way n l → Option.Rel (fun b c => (b.links.map change).Perm c.links)
    (g.opens? l) (g'.opens? (change l))

theorem Reordered.way (h : Reordered change g g') (hl : g.Way n l) : g'.Way n (change l) := by
  induction hl with
  | root =>
    rw [← h.root]
    exact .root
  | @step n l k b hl hb hk ih =>
    have hrel := h.opens n l hl
    rw [hb] at hrel
    match hc : g'.opens? (change l), hrel with
    | some c, .some hperm => exact ih.step hc (hperm.mem_iff.mp (List.mem_map_of_mem hk))

end LinkGraph

namespace Walker

variable {σ : Type} {w : Walker σ} {root : Link} {store store' : σ} {r : WalkResult}
  {g : LinkGraph} {l : Link} {n : Nat}

theorem read_eq_found {v : StoredBytes} (hv : w.retrieve l.target store = (.ok v, store'))
    (ha : l.admits v.bytes) : w.read l store = (.ok (l.found w.keys v), store') := by
  simp only [read, hv, if_pos ha, Link.found]
  cases l.openBytes? w.keys v.bytes <;> rfl

/-- A name is found open exactly if a link on some way to it opens it. -/
theorem isSome_of_reports (hg : g.Uniform) (hr : Reports g r) (hl : g.Way n l) :
    (r.block? l.target).isSome = (g.opens? l).isSome ∧
      (r.locked? l.target).isSome = !(g.opens? l).isSome := by
  obtain ⟨m, -, hdist⟩ := hl.exists_distance
  obtain ⟨f, hfound⟩ := Option.isSome_iff_exists.mp ((hr.1 l.target).mpr ⟨m, hdist⟩)
  obtain ⟨m', k, hk, htarget, hread⟩ := hr.2 _ f hfound
  obtain ⟨v, -, -, rfl⟩ := LinkGraph.exists_of_read hread
  rw [← LinkGraph.isSome_eq_of_rel (hg m' k n l hk hl htarget), WalkResult.block?,
    WalkResult.locked?, hfound]
  cases g.opens? k with
  | none => exact ⟨rfl, rfl⟩
  | some b => exact ⟨rfl, rfl⟩

/-- Two walks that meet the same links in different orders open the same nodes. -/
theorem same_kinds_of_reordered {w' : Walker σ} {g' : LinkGraph} {change : Link → Link}
    {store₁ store₁' : σ} {r' : WalkResult} (hw : w.limit = none) (hw' : w'.limit = none)
    (hg : g.Uniform) (hg' : g'.Uniform) (hsame : LinkGraph.Reordered change g g')
    (hsees : w.Sees g store) (hsees' : w'.Sees g' store₁)
    {hs : w.Halts (.start g.root) store} {hs' : w'.Halts (.start g'.root) store₁}
    (h : w.fetch g.root store hs = (.ok r, store'))
    (h' : w'.fetch g'.root store₁ hs' = (.ok r', store₁')) (hl : g.Way n l) :
    (r.block? l.target).isSome = (r'.block? (change l).target).isSome ∧
      (r.locked? l.target).isSome = (r'.locked? (change l).target).isSome := by
  obtain ⟨hopen, hlocked⟩ := isSome_of_reports hg (reports_of_fetch hw hg hsees h) hl
  obtain ⟨hopen', hlocked'⟩ :=
    isSome_of_reports hg' (reports_of_fetch hw' hg' hsees' h') (hsame.way hl)
  have hopens := LinkGraph.isSome_eq_of_rel (hsame.opens n l hl)
  exact ⟨by rw [hopen, hopens, hopen'], by rw [hlocked, hopens, hlocked']⟩

/-- What a walk without a limit leaves closed. Under every name it finds what the first link to the
name, in the order of the walk, makes of the bytes there. So bytes that stay closed are not opened
by the key of that link, and for no link to them are they a frame or opened by the keychain. The
keys of later links are not tried: but where all links to a name open it alike, the order in which
blocks list their links does not change which nodes are opened. -/
theorem locked_of_fetch (hw : w.limit = none) {hs : w.Halts (.start root) store}
    (h : w.fetch root store hs = (.ok r, store')) :
    ∃ ls, w.Traces root store ls r store' ∧ (∀ l, l ∈ ls ↔ r.Meets root l) ∧
      (∀ name f, (name, f) ∈ r.entries → ∃ l v store₁ store₂,
        ls.find? (·.target == name) = some l ∧ w.retrieve name store₁ = (.ok v, store₂) ∧
          f = l.found w.keys v) ∧
      (∀ name v, (name, v) ∈ r.lockedEntries →
        (∀ l, ls.find? (·.target == name) = some l → ∀ b, l.decrypt v.bytes ≠ .ok b) ∧
        ∀ l, r.Meets root l → l.target = name →
          (∀ b, Block.parse l.digestAlgorithm v.bytes ≠ .ok b) ∧
            ∀ c ∈ w.keys, c.openLink? l v.bytes = none) ∧
      ∀ (g g' : LinkGraph) (change : Link → Link) (w' : Walker σ) (store₁ store₁' : σ)
        (hs' : w'.Halts (.start g'.root) store₁) (r' : WalkResult),
        g.root = root → g.Uniform → g'.Uniform → LinkGraph.Reordered change g g' →
        w.Sees g store → w'.Sees g' store₁ → w'.limit = none →
        w'.fetch g'.root store₁ hs' = (.ok r', store₁') → ∀ n l, g.Way n l →
          (r.block? l.target).isSome = (r'.block? (change l).target).isSome ∧
            (r.locked? l.target).isSome = (r'.locked? (change l).target).isSome := by
  obtain ⟨ls, htraces⟩ := exists_traces h
  obtain ⟨hmeets, hfirst⟩ := htraces.first_reads hw
  have hfound (name : String) (f : Found) (hmem : (name, f) ∈ r.entries) :
      ∃ l v store₁ store₂, ls.find? (·.target == name) = some l ∧
        w.retrieve name store₁ = (.ok v, store₂) ∧ f = l.found w.keys v := by
    obtain ⟨l, hfind, store₁, store₂, hread⟩ := hfirst name f hmem
    obtain ⟨v, hv, -, hf⟩ := exists_of_read hread
    obtain rfl : l.target = name := by simpa using List.find?_some hfind
    exact ⟨l, v, store₁, store₂, hfind, hv, hf⟩
  refine ⟨ls, htraces, hmeets, hfound, fun name v hmem => ?_, ?_⟩
  · obtain ⟨l, u, -, -, hfind, -, hf⟩ := hfound name _ (WalkResult.mem_lockedEntries_iff.mp hmem)
    obtain ⟨hclosed, rfl⟩ := Link.found_eq_locked_iff.mp hf.symm
    obtain ⟨hparse, hkey, hkeychain⟩ := Link.openBytes?_eq_none_iff.mp hclosed
    have htarget : l.target = name := by simpa using List.find?_some hfind
    refine ⟨fun k hk => ?_, fun k _ hk => ?_⟩
    · obtain rfl := Option.some.inj (hfind.symm.trans hk)
      exact hkey
    · have hsame : k.target = l.target := hk.trans htarget.symm
      rw [Link.digestAlgorithm_eq_of_target hsame]
      exact ⟨hparse, fun c hc => (c.openLink?_eq_of_target hsame).trans (hkeychain c hc)⟩
  · rintro g g' change w' store₁ store₁' hs' r' rfl hg hg' hreordered hsees hsees' hw' h' n l hl
    exact same_kinds_of_reordered hw hw' hg hg' hreordered hsees hsees' h h' hl

section Vault

def keyed : Link := ⟨"s", some ⟨"AES/CTR/NoPadding", List.replicate 16 0, 128, [], 0⟩⟩

def sealedFrame : Bytes :=
  [0x96, 0xee, 0x91, 0xae, 0xe2, 0x80, 0x28, 0x3b, 0x98, 0x4c, 0xfa, 0x59, 0xca, 0x34, 0x2b, 0x2e]

def vaultFrame (ls : List Link) : Bytes :=
  Block.head 7 ls 0 ++ List.replicate (112 - Block.framesLength ls) 0

/-- A root `r` with some links, and the ciphertext under `s` and under `u`. -/
def vault (ls : List Link) : Store Backing :=
  .plain (.memory ⟨[("s", sealedFrame), ("u", sealedFrame), ("r", vaultFrame ls)]⟩)

/-- A link to the ciphertext, of which only that to `s` may have a key. -/
def IsLeaf (l : Link) : Prop := l = letter 's' ∨ l = letter 'u' ∨ l = keyed

abbrev leafFound (l : Link) : Found := l.found none ⟨sealedFrame, false⟩

structure Pair (ls : List Link) : Prop where
  length : ls.length = 2
  leaf : ∀ l ∈ ls, IsLeaf l

variable {ls : List Link} {l k : Link} {n : Nat}

theorem Pair.framesLength_le (hls : Pair ls) : Block.framesLength ls ≤ 112 := by
  have hsize {l : Link} (hl : IsLeaf l) : l.byteLength ≤ 50 := by
    rcases hl with rfl | rfl | rfl <;> decide
  obtain ⟨l, k, rfl⟩ := List.length_eq_two.mp hls.length
  have hl := hsize (hls.leaf l (by simp))
  have hk := hsize (hls.leaf k (by simp))
  simp only [Block.framesLength]
  omega

theorem Pair.valid (hls : Pair ls) : ∀ l ∈ ls, l.Valid ∧ l.Canonical := by
  intro l hl
  rcases hls.leaf l hl with rfl | rfl | rfl
  · exact ⟨⟨by decide, by decide, by simp [letter], by decide⟩, by simp [Link.Canonical, letter]⟩
  · exact ⟨⟨by decide, by decide, by simp [letter], by decide⟩, by simp [Link.Canonical, letter]⟩
  · refine ⟨⟨by decide, by decide, ?_, by decide⟩, by simp [Link.Canonical, keyed]⟩
    rintro d ⟨⟩
    exact ⟨by decide, by decide, by decide, by decide, by decide⟩

theorem Pair.exists_open_root (hls : Pair ls) :
    ∃ b, b.links = ls ∧ (letter 'r').openBytes? none (vaultFrame ls) = some b := by
  have hlength := hls.framesLength_le
  have hcount := hls.length
  let frame := vaultFrame ls
  let b : Block := ⟨ls, [], frame, Fingerprint.of (letter 'r').digestAlgorithm frame⟩
  refine ⟨b, rfl, Link.openBytes?_of_parse ?_⟩
  refine Block.parse_eq_ok_iff.mpr ⟨7, List.replicate (112 - Block.framesLength ls) 0, by decide,
    by decide, ?_, ?_, hls.valid, rfl, rfl, rfl⟩
  · rw [vaultFrame, List.length_append, Block.length_head, List.length_replicate,
      Block.headerLength]
    omega
  · change ls.length ≤ 255
    omega

theorem openBytes?_letter {c : Char} (hc : c = 's' ∨ c = 'u') :
    (letter c).openBytes? none sealedFrame = none := by
  have hnone : ((letter c).openBytes? none sealedFrame).isNone := by
    rcases hc with rfl | rfl <;> decide +kernel
  simpa using hnone

theorem leafFound_letter {c : Char} (hc : c = 's' ∨ c = 'u') :
    leafFound (letter c) = .locked ⟨sealedFrame, false⟩ :=
  Link.found_eq_locked_iff.mpr ⟨openBytes?_letter hc, rfl⟩

theorem exists_decrypt_keyed : ∃ b, b.links = [] ∧ keyed.decrypt sealedFrame = .ok b := by
  have hlinks : (keyed.decrypt sealedFrame).map Block.links = .ok [] := by decide +kernel
  cases hb : keyed.decrypt sealedFrame with
  | error e =>
    rw [hb] at hlinks
    cases hlinks
  | ok b =>
    rw [hb] at hlinks
    exact ⟨b, Except.ok.inj hlinks, rfl⟩

theorem leafFound_keyed : ∃ b, b.links = [] ∧ leafFound keyed = .block b := by
  obtain ⟨b, hnil, hb⟩ := exists_decrypt_keyed
  have hparse := (Link.openBytes?_eq_none_iff.mp (openBytes?_letter (Or.inl rfl))).1
  rw [Link.digestAlgorithm_eq_of_target (l := letter 's') (k := keyed) rfl] at hparse
  exact ⟨b, hnil, Link.found_of_openBytes? (Link.openBytes?_of_decrypt hparse hb)⟩

theorem IsLeaf.links (hl : IsLeaf l) : (leafFound l).links = [] := by
  rcases hl with rfl | rfl | rfl
  · rw [leafFound_letter (Or.inl rfl), Found.links]
  · rw [leafFound_letter (Or.inr rfl), Found.links]
  · obtain ⟨b, hnil, hb⟩ := leafFound_keyed
    rw [hb, Found.links, hnil]

theorem IsLeaf.target (hl : IsLeaf l) : l.target = "s" ∨ l.target = "u" := by
  rcases hl with rfl | rfl | rfl <;> simp [letter, keyed]

theorem retrieve_leaf (ls : List Link) (hl : IsLeaf l) :
    (vault ls).retrieve l.target = (.ok ⟨sealedFrame, false⟩, vault ls) := by
  rcases hl with rfl | rfl | rfl <;> rfl

theorem admits_of_target {l : Link} (hl : l.target = "r" ∨ l.target = "s" ∨ l.target = "u")
    (bs : Bytes) : l.admits bs := by
  have hname : (Fingerprint.decode l.target).toOption = none := by
    rcases hl with hl | hl | hl <;> rw [hl] <;> decide
  refine Link.admits_iff.mpr fun fp hfp => ?_
  rw [hfp] at hname
  cases hname

theorem read_leaf (ls : List Link) (hl : IsLeaf l) :
    (Store.walker none none).read l (vault ls) = (.ok (leafFound l), vault ls) :=
  read_eq_found (retrieve_leaf ls hl) (admits_of_target (Or.inr hl.target) _)

/-- The walk through the example: a second link to the same name is passed over. -/
theorem exists_fetch_vault (hls : Pair [l, k]) : ∃ b, b.links = [l, k] ∧
    (vault [l, k]).fetch none none (letter 'r') =
      (.ok ⟨("r", .block b) :: (l.target, leafFound l) ::
        if l.target = k.target then [] else [(k.target, leafFound k)]⟩, vault [l, k]) := by
  obtain ⟨b, hb, hopen⟩ := hls.exists_open_root
  have hl : IsLeaf l := hls.leaf l (by simp)
  have hk : IsLeaf k := hls.leaf k (by simp)
  have hr {j : Link} (hj : IsLeaf j) : j.target ≠ "r" := by
    rcases hj.target with h | h <;> rw [h] <;> decide
  have hroot : (Store.walker none none).read (letter 'r') (vault [l, k]) =
      (.ok (.block b), vault [l, k]) :=
    read_of_openBytes? (v := ⟨vaultFrame [l, k], false⟩) rfl (admits_of_target (Or.inl rfl) _) hopen
  have hempty {j : Link} (hj : IsLeaf j) (r : WalkResult) : (Store.walker none none).VisitEach
      (leafFound j).links r (vault [l, k]) (.ok r, vault [l, k]) := by
    rw [hj.links]
    exact .nil
  have hnew : ¬ (WalkResult.record {} "r" (.block b)).contains l.target := by
    simpa [WalkResult.contains_iff, WalkResult.names, WalkResult.record] using hr hl
  have hfirst := Visit.enter hnew (read_leaf [l, k] hl) (hempty hl _)
  refine ⟨b, hb, (Store.visit_iff_fetch _ _ _ _).mp (.enter (by decide) hroot ?_)⟩
  rw [Found.links, hb]
  refine .cons hfirst (.cons ?_ .nil)
  split
  · next hsame => exact .known (by simp [WalkResult.contains_iff, ← hsame])
  · next hother =>
    refine .enter ?_ (read_leaf [l, k] hk) (hempty hk _)
    have hne : k.target ≠ l.target := fun h => hother h.symm
    simpa [WalkResult.contains_iff, WalkResult.names, WalkResult.record] using ⟨hr hk, hne⟩

abbrev vaultGraph (ls : List Link) : LinkGraph := (vault ls).graph none (letter 'r')

theorem opens?_leaf (ls : List Link) (hl : IsLeaf l) :
    (vaultGraph ls).opens? l = l.openBytes? none sealedFrame := by
  simp only [LinkGraph.opens?, Store.graph, retrieve_leaf ls hl]

theorem IsLeaf.not_mem_links (hl : IsLeaf l) {b : Block}
    (hb : (vaultGraph ls).opens? l = some b) : k ∉ b.links := by
  have hlinks := hl.links
  rw [opens?_leaf ls hl] at hb
  rw [leafFound, Link.found_of_openBytes? hb, Found.links] at hlinks
  simp [hlinks]

theorem Pair.way (hls : Pair ls) (hl : (vaultGraph ls).Way n l) : l = letter 'r' ∨ l ∈ ls := by
  induction hl with
  | root => exact Or.inl rfl
  | @step n l k b hl hb hk ih =>
    rcases ih with rfl | hmem
    · obtain ⟨b', hb', hopen⟩ := hls.exists_open_root
      obtain rfl : b = b' := Option.some.inj (hb.symm.trans hopen)
      exact Or.inr (hb' ▸ hk)
    · exact absurd hk ((hls.leaf l hmem).not_mem_links hb)

theorem Pair.uniform (hls : Pair ls) (hone : ∀ l ∈ ls, ∀ k ∈ ls, l.target = k.target → l = k) :
    (vaultGraph ls).Uniform := by
  refine LinkGraph.uniform_of_decryption_eq fun n l m k hl hk htarget => ?_
  have hr {j : Link} (hj : j ∈ ls) : j.target ≠ (letter 'r').target := by
    rcases (hls.leaf j hj).target with h | h <;> rw [h] <;> decide
  rcases hls.way hl with rfl | hl <;> rcases hls.way hk with rfl | hk
  · rfl
  · exact absurd htarget.symm (hr hk)
  · exact absurd htarget (hr hl)
  · rw [hone l hl k hk htarget]

theorem Pair.reordered (hls : Pair ls) {ls' : List Link} (hls' : Pair ls') (h : ls.Perm ls') :
    LinkGraph.Reordered id (vaultGraph ls) (vaultGraph ls') := by
  refine ⟨rfl, fun n l hl => ?_⟩
  rcases hls.way hl with rfl | hmem
  · obtain ⟨b, hb, hopen⟩ := hls.exists_open_root
    obtain ⟨b', hb', hopen'⟩ := hls'.exists_open_root
    change Option.Rel _ ((letter 'r').openBytes? none (vaultFrame ls))
      ((letter 'r').openBytes? none (vaultFrame ls'))
    rw [hopen, hopen']
    exact .some (by simpa [hb, hb'] using h)
  · rw [id, opens?_leaf ls (hls.leaf l hmem), opens?_leaf ls' (hls.leaf l hmem)]
    cases l.openBytes? none sealedFrame with
    | none => exact .none
    | some b => exact .some (by simp)

/-- A link with the right key is met after one without a key, and is not tried. -/
theorem later_key_is_not_tried :
    (∃ r, (vault [letter 's', keyed]).fetch none none (letter 'r') =
        (.ok r, vault [letter 's', keyed]) ∧ ("s", ⟨sealedFrame, false⟩) ∈ r.lockedEntries ∧
      r.Meets (letter 'r') keyed ∧ keyed.target = "s" ∧ ∃ b, keyed.decrypt sealedFrame = .ok b) ∧
    ∃ r, (vault [keyed, letter 's']).fetch none none (letter 'r') =
      (.ok r, vault [keyed, letter 's']) ∧ r.lockedNames = [] := by
  have hfirst : Pair [letter 's', keyed] := ⟨rfl, by simp [IsLeaf]⟩
  have hlast : Pair [keyed, letter 's'] := ⟨rfl, by simp [IsLeaf]⟩
  obtain ⟨opened, -, hopened⟩ := exists_decrypt_keyed
  constructor
  · obtain ⟨b, hb, hfetch⟩ := exists_fetch_vault hfirst
    refine ⟨_, hfetch, ?_, ?_, rfl, opened, hopened⟩
    · rw [WalkResult.mem_lockedEntries_iff, leafFound_letter (Or.inl rfl)]
      simp [letter]
    · exact Or.inr ⟨_, List.mem_cons_self, by simp [Found.links, hb]⟩
  · obtain ⟨b, hb, hfetch⟩ := exists_fetch_vault hlast
    obtain ⟨b', -, hb'⟩ := leafFound_keyed
    refine ⟨_, hfetch, ?_⟩
    rw [hb']
    rfl

/-- The node `u` is closed and `s` is opened, whichever of the two links comes first. -/
theorem locked_of_fetch_two_links :
    let ls := [keyed, letter 'u']
    let ls' := [letter 'u', keyed]
    ∃ r r', (vault ls).fetch none none (letter 'r') = (.ok r, vault ls) ∧
      (vault ls').fetch none none (letter 'r') = (.ok r', vault ls') ∧
      ("u", ⟨sealedFrame, false⟩) ∈ r.lockedEntries ∧
      (∃ l, r.Meets (letter 'r') l ∧ l.target = "u" ∧ ∀ b, l.decrypt sealedFrame ≠ .ok b) ∧
      (r'.locked? "u").isSome ∧ (r'.block? "s").isSome := by
  intro ls ls'
  have hls : Pair ls := ⟨rfl, by simp [ls, IsLeaf]⟩
  have hls' : Pair ls' := ⟨rfl, by simp [ls', IsLeaf]⟩
  obtain ⟨b, hb, hfetch⟩ := exists_fetch_vault hls
  obtain ⟨_, -, hfetch'⟩ := exists_fetch_vault hls'
  obtain ⟨top, htop, hopen⟩ := hls.exists_open_root
  obtain ⟨b', -, hb'⟩ := leafFound_keyed
  obtain ⟨order, -, hmeets, hfound, hclosed, hsame⟩ := locked_of_fetch (w := Store.walker none none)
    rfl hfetch
  have hway {l : Link} (hl : l ∈ ls) : (vaultGraph ls).Way 1 l :=
    LinkGraph.Way.root.step hopen (htop ▸ hl)
  have hsees (ls : List Link) : (Store.walker none none).Sees (vaultGraph ls) (vault ls) :=
    Store.sees_graph (Store.isLocal_base.mpr (.memory _)) none none (letter 'r')
  have hkinds {l : Link} (hl : l ∈ ls) := hsame (vaultGraph ls) (vaultGraph ls') id _ _ _
    (Store.walker_halts _ none none _) _ rfl (hls.uniform (by simp [ls, keyed, letter]))
    (hls'.uniform (by simp [ls', keyed, letter])) (hls.reordered hls' (.swap _ _ _)) (hsees ls)
    (hsees ls') rfl hfetch' 1 l (hway hl)
  have hlocked := leafFound_letter (c := 'u') (Or.inr rfl)
  rw [hb', hlocked] at hfound hclosed
  have hmem : ("u", ⟨sealedFrame, false⟩) ∈ (WalkResult.lockedEntries ⟨[("r", .block b),
      ("s", .block b'), ("u", .locked ⟨sealedFrame, false⟩)]⟩) := by
    simp [WalkResult.mem_lockedEntries_iff]
  refine ⟨_, _, hfetch, hfetch', ?_, ?_, ?_, ?_⟩
  · rw [hb', hlocked]
    exact hmem
  · obtain ⟨l, -, -, -, hfind, -, -⟩ := hfound "u" _ (WalkResult.mem_lockedEntries_iff.mp hmem)
    exact ⟨l, (hmeets l).mp (List.mem_of_find?_eq_some hfind),
      by simpa using List.find?_some hfind, (hclosed "u" _ hmem).1 l hfind⟩
  · refine (hkinds (l := letter 'u') (by simp [ls])).2.symm.trans ?_
    rw [hb', hlocked]
    rfl
  · refine (hkinds (l := keyed) (by simp [ls])).1.symm.trans ?_
    rw [hb', hlocked]
    rfl

end Vault

end Walker

end ContentAddressed
