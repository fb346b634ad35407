import ContentAddressed.Command.Basic
import ContentAddressed.Proofs.Block.Obtained
import ContentAddressed.Proofs.Block.Size
import ContentAddressed.Proofs.Walk.Distance

/-!
# What every link is like

Links come from drafts, frames and fingerprints, and with the blocks that hold them. Wherever a link
comes from, it fits its frame: the texts are printable, a key has the bytes that its bits need, and
the numbers of the header say the true lengths.
-/

namespace ContentAddressed

open FileTree (Layout)

/-! ## Blocks that a walk finds -/

theorem Link.exists_parse_of_openBytes? {keys : Option Keychain} {l : Link} {bs : Bytes} {b : Block}
    (h : l.openBytes? keys bs = some b) : ∃ a frame, Block.parse a frame = .ok b := by
  have hdecrypt {k : Link} (hk : (k.decrypt bs).toOption = some b) :
      ∃ a frame, Block.parse a frame = .ok b :=
    exists_parse_of_decrypt (Result.toOption_eq_some_iff.mp hk)
  rw [openBytes?] at h
  split at h
  · next hparse => exact ⟨_, _, hparse.trans (congrArg Except.ok (Option.some.inj h))⟩
  · dsimp only at h
    split at h
    · next hown =>
      split at hown
      · exact hdecrypt (hown.trans h)
      · cases hown
    · obtain ⟨k, -, hopen⟩ := Option.bind_eq_some_iff.mp h
      simp only [Keychain.openLink?, Option.bind_eq_bind, Option.bind_eq_some_iff] at hopen
      obtain ⟨fp, -, key, -, keyed, -, hkeyed⟩ := hopen
      exact hdecrypt hkeyed

namespace Walker

variable {σ : Type} {w : Walker σ}

def Opened (s : WalkState) : Prop :=
  ∀ v ∈ s.visits, ∀ b, v.found = .block b → ∃ a frame, Block.parse a frame = .ok b

theorem keeps_opened (w : Walker σ) : w.Keeps fun s _ => Opened s := by
  intro l depth rest tooDeep visits store store' s hs hfollows
  cases hfollows with
  | beyond => exact hs
  | known => exact hs
  | enter hd hv hread =>
    refine List.forall_mem_cons.mpr ⟨?_, hs⟩
    rintro b rfl
    rw [read] at hread
    split at hread
    · cases hread
    · split at hread
      · split at hread
        · next hopen =>
          cases hread
          exact Link.exists_parse_of_openBytes? hopen
        · cases hread
      · cases hread
  | shorten hd hv hlimit hlt =>
    intro u hu b hb
    rcases WalkState.mem_visits_shorten.mp hu with ⟨hmem, -⟩ | ⟨v, hmem, -, rfl⟩
    · exact hs u hmem b hb
    · exact hs v hmem b hb

/-- Every block that a walk returns comes from a frame. -/
theorem exists_parse_of_fetch {root : Link} {store store' : σ} {r : WalkResult}
    {hs : w.Halts (.start root) store} (h : w.fetch root store hs = (.ok r, store'))
    {name : String} {b : Block} (hb : (name, b) ∈ r.blocks) :
    ∃ a frame, Block.parse a frame = .ok b := by
  have hstops := fetch_stops (keeps_opened w) (fun v hv => by cases hv) hs
  rw [h] at hstops
  obtain ⟨tooDeep, visits, hopened, hfinish⟩ := hstops.exists_of_ok
  obtain ⟨rfl, -⟩ := eq_result_of_finish hfinish
  obtain ⟨v, hv, -, hfound⟩ : ∃ v ∈ visits, v.name = name ∧ v.found = .block b := by
    simpa [WalkState.result] using WalkResult.mem_entries_of_mem_blocks hb
  exact hopened v hv b hfound

end Walker

/-! ## The ways to a link -/

mutual

/-- The links that the library gives out. -/
inductive Link.Given : Link → Prop
  | built {d : Link.Draft} {l : Link} (h : d.build = .ok l) : Link.Given l
  | parsed {frame : Bytes} {l : Link} (h : Link.parse frame = .ok l) : Link.Given l
  | named (fp : Fingerprint) : Link.Given (.ofFingerprint fp)
  | rekeyed {k l : Link} {key : SecretKey} (hk : Link.Given k) (h : k.withKey key = .ok l) :
    Link.Given l
  | ofBlock {b : Block} (hb : Block.Given b) : Link.Given b.link
  | inBlock {b : Block} {l : Link} (hb : Block.Given b) (hl : l ∈ b.links) : Link.Given l
  | ofSealed {e : SealedBlock} (he : SealedBlock.Given e) : Link.Given e.link
  | ofFile {o : Layout} {fillers : Fillers} {data : Bytes} {t : FileTree}
    (h : o.build fillers data = .ok t) : Link.Given t.root
  | ofArguments {link name : Option String} {l : Link}
    (h : Command.rootLink link name = .ok l) : Link.Given l

/-- The blocks that the library gives out. A draft takes links that were given out before. -/
inductive Block.Given : Block → Prop
  | built {d : Block.Draft} {filler : Bytes} {b : Block} (hd : ∀ l ∈ d.links, Link.Given l)
    (h : d.build filler = .ok b) : Block.Given b
  | parsed {a : DigestAlgorithm} {frame : Bytes} {b : Block} (h : Block.parse a frame = .ok b) :
    Block.Given b
  | deciphered {l : Link} {ciphertext : Bytes} {b : Block} (hl : Link.Given l)
    (h : l.decrypt ciphertext = .ok b) : Block.Given b
  | ofFile {o : Layout} {fillers : Fillers} {data : Bytes} {t : FileTree} {b : Block}
    (h : o.build fillers data = .ok t) (hb : b ∈ t.plaintext) : Block.Given b
  | fetched {σ : Type} {w : Walker σ} {root : Link} {store store' : σ} {r : WalkResult}
    {hs : w.Halts (.start root) store} {name : String} {b : Block} (hroot : Link.Given root)
    (h : w.fetch root store hs = (.ok r, store')) (hb : (name, b) ∈ r.blocks) : Block.Given b

inductive SealedBlock.Given : SealedBlock → Prop
  | encrypted {b : Block} {config : CryptoConfig} {e : SealedBlock} (hb : Block.Given b)
    (h : b.encrypt config = .ok e) : SealedBlock.Given e
  | built {d : SealedBlock.Draft} {e : SealedBlock} (hd : ∀ l ∈ d.link, Link.Given l)
    (h : d.build = .ok e) : SealedBlock.Given e
  | ofFile {o : Layout} {fillers : Fillers} {data : Bytes} {t : FileTree} {e : SealedBlock}
    (h : o.build fillers data = .ok t) (he : e ∈ t.encrypted) : SealedBlock.Given e

end

theorem Block.valid_links_of_parse {a : DigestAlgorithm} {frame : Bytes} {b : Block}
    (h : Block.parse a frame = .ok b) : ∀ l ∈ b.links, l.Valid := by
  obtain ⟨-, -, -, -, -, -, hlinks, -⟩ := parse_eq_ok_iff.mp h
  exact fun l hl => (hlinks l hl).1

namespace FileTree

variable {o : Layout} {fillers : Fillers} {data : Bytes} {t : FileTree}

theorem valid_links_of_build (h : o.build fillers data = .ok t) {b : Block} (hb : b ∈ t.plaintext) :
    ∀ l ∈ b.links, l.Valid := by
  obtain ⟨n, hn, hnb⟩ := List.mem_filterMap.mp hb
  obtain ⟨-, rfl⟩ : n.enclosed = none ∧ n.block = b := by simpa using hnb
  intro k hk
  have hsound := (Layout.exists_spells_of_build h).1 n hn
  exact Block.valid_links_of_parse (hsound.parse_frame .standard) k hk

theorem valid_link_of_build (h : o.build fillers data = .ok t) {e : SealedBlock}
    (he : e ∈ t.encrypted) : e.link.Valid := by
  obtain ⟨n, hn, hne⟩ := List.mem_filterMap.mp he
  exact (((Layout.exists_spells_of_build h).1 n hn).encloses e hne).valid

theorem valid_root_of_build (h : o.build fillers data = .ok t) : t.root.Valid := by
  obtain ⟨hsound, height, hspells⟩ := Layout.exists_spells_of_build h
  obtain ⟨n, hn, hroot⟩ : ∃ n ∈ t.nodes, n.link = t.root := by
    cases height with
    | zero =>
      obtain ⟨n, hn, hroot, -⟩ := hspells
      exact ⟨n, hn, hroot⟩
    | succ height =>
      obtain ⟨n, hn, hroot, -⟩ := hspells
      exact ⟨n, hn, hroot⟩
  exact hroot ▸ (hsound n hn).valid_link.1

end FileTree

theorem Command.valid_rootLink {link name : Option String} {l : Link}
    (h : rootLink link name = .ok l) : l.Valid := by
  unfold rootLink at h
  split at h
  · split at h
    · cases h
    · exact (Link.parse_eq_ok_iff.mp (Result.mapError_eq_ok_iff.mp h)).1
  · exact Link.Draft.valid_of_build (Result.mapError_eq_ok_iff.mp h)
  · cases h

mutual

/-- Every operation gives a link that fits its frame. -/
theorem Link.Given.valid {l : Link} : l.Given → l.Valid
  | .built h => Link.Draft.valid_of_build h
  | .parsed h => (Link.parse_eq_ok_iff.mp h).1
  | .named fp => Link.valid_ofFingerprint fp
  | .rekeyed _ h => Link.Draft.valid_of_build h
  | .ofBlock _ => Link.valid_ofFingerprint _
  | .inBlock hb hl => hb.valid_links _ hl
  | .ofSealed he => he.valid_link
  | .ofFile h => FileTree.valid_root_of_build h
  | .ofArguments h => Command.valid_rootLink h

theorem Block.Given.valid_links {b : Block} : b.Given → ∀ l ∈ b.links, l.Valid
  | .built hd h => fun l hl => (hd l ((Block.Draft.frame_of_build h).1 ▸ hl)).valid
  | .parsed h => Block.valid_links_of_parse h
  | .deciphered _ h => by
    obtain ⟨a, frame, hparse⟩ := Link.exists_parse_of_decrypt h
    exact Block.valid_links_of_parse hparse
  | .ofFile h hb => FileTree.valid_links_of_build h hb
  | .fetched _ h hb => by
    obtain ⟨a, frame, hparse⟩ := Walker.exists_parse_of_fetch h hb
    exact Block.valid_links_of_parse hparse

theorem SealedBlock.Given.valid_link {e : SealedBlock} : e.Given → e.link.Valid
  | .encrypted _ h => (Block.encloses_of_encrypt h).valid
  | .built hd h => (hd _ (congrArg SealedBlock.Draft.link (SealedBlock.Draft.eq_of_build h))).valid
  | .ofFile h he => FileTree.valid_link_of_build h he

end

/-! ## Header fields -/

namespace Link

structure Header where
  bodyLength : Nat
  algorithmLength : Nat
  targetLength : Nat
  keyBits : Nat
  ivBits : Nat
  deriving DecidableEq

def header (frame : Bytes) : Header :=
  ⟨Block.field frame 6 2, Block.field frame 8 2, Block.field frame 10 2, Block.field frame 12 2,
    Block.field frame 14 2⟩

def numbers (l : Link) : Header :=
  match l.decryption with
  | some d =>
    ⟨l.bodyLength, d.algorithm.toList.length, l.target.toList.length, d.keyBits, d.ivBits⟩
  | none => ⟨l.bodyLength, 0, l.target.toList.length, 0, 0⟩

theorem header_append {body algorithm target keyBits ivBits : Nat} (hbody : body ≤ 65535)
    (halgorithm : algorithm ≤ 65535) (htarget : target ≤ 65535) (hkeyBits : keyBits ≤ 65535)
    (hivBits : ivBits ≤ 65535) (rest : Bytes) :
    header (magic ++ Bytes.littleEndian 2 body ++ Bytes.littleEndian 2 algorithm ++
      Bytes.littleEndian 2 target ++ Bytes.littleEndian 2 keyBits ++ Bytes.littleEndian 2 ivBits ++
      rest) = ⟨body, algorithm, target, keyBits, ivBits⟩ := by
  have hfield {n : Nat} (hn : n ≤ 65535) (before after : Bytes) :
      Block.field (before ++ (Bytes.littleEndian 2 n ++ after)) before.length 2 = n :=
    Block.field_append before after (by omega)
  -- each number stands behind the ones before it
  simp only [header, Header.mk.injEq, List.append_assoc]
  refine ⟨hfield hbody magic _, ?_, ?_, ?_, ?_⟩
  · rw [← List.append_assoc]
    exact hfield halgorithm (magic ++ Bytes.littleEndian 2 _) _
  · rw [← List.append_assoc, ← List.append_assoc]
    exact hfield htarget (magic ++ Bytes.littleEndian 2 _ ++ Bytes.littleEndian 2 _) _
  · rw [← List.append_assoc, ← List.append_assoc, ← List.append_assoc]
    exact hfield hkeyBits
      (magic ++ Bytes.littleEndian 2 _ ++ Bytes.littleEndian 2 _ ++ Bytes.littleEndian 2 _) _
  · rw [← List.append_assoc, ← List.append_assoc, ← List.append_assoc, ← List.append_assoc]
    exact hfield hivBits (magic ++ Bytes.littleEndian 2 _ ++ Bytes.littleEndian 2 _ ++
      Bytes.littleEndian 2 _ ++ Bytes.littleEndian 2 _) _

/-- No number in the header of a link that fits its frame is cut off. -/
theorem Valid.header_frame {l : Link} (h : l.Valid) : header l.frame = l.numbers := by
  obtain ⟨target, decryption⟩ := l
  obtain ⟨-, -, hd, hbody⟩ := h
  cases decryption with
  | none => exact header_append hbody (by simp) hbody (by simp) (by simp) _
  | some d =>
    obtain ⟨-, hkeyBits, -, hivBits, -⟩ := hd d rfl
    have hsum : d.algorithm.toList.length + target.toList.length + d.key.length + d.iv.length ≤
        65535 := hbody
    have htarget : target.toList.length ≤ 65535 := by omega
    exact header_append hbody (by omega) htarget hkeyBits hivBits _

/-- Every link, from whichever operation, has a target that is there and printable, printable
parameters, and as many bytes of key and start value as their bits need; and what its frame holds
fits the header, which says the true numbers. -/
theorem Given.fits_frame {l : Link} (h : l.Given) :
    l.target ≠ "" ∧ Ascii.printable l.target ∧
      (∀ d ∈ l.decryption, Ascii.printable d.algorithm ∧ d.key.length = (d.keyBits + 7) / 8 ∧
        d.iv.length = (d.ivBits + 7) / 8) ∧
      l.bodyLength ≤ 65535 ∧ header l.frame = l.numbers ∧ l.frame.length = l.byteLength := by
  obtain ⟨hne, hprintable, hd, hbody⟩ := h.valid
  refine ⟨hne, hprintable, fun d hmem => ?_, hbody, h.valid.header_frame, l.length_frame⟩
  obtain ⟨halgorithm, -, hkey, -, hiv⟩ := hd d hmem
  exact ⟨halgorithm, hkey, hiv⟩

/-- A link from a frame, with thirteen bits of key and one of start value, in a block that was built
with it. -/
theorem Given.fits_frame_odd :
    let odd : Link := ⟨"b", some ⟨"AES", [0x4C, 0x10], 13, [0x80], 1⟩⟩
    odd.Given ∧ header odd.frame = ⟨7, 3, 1, 13, 1⟩ ∧ odd.frame.length = 23 := by
  intro odd
  have hparse : parse odd.frame = .ok odd := by
    refine parse_eq_ok_iff.mpr ⟨⟨by decide, by decide, ?_, by decide⟩, ?_, rfl⟩
    · rintro d ⟨⟩
      exact ⟨by decide, by decide, by decide, by decide, by decide⟩
    · rintro d ⟨⟩
      simp
  obtain ⟨b, hb⟩ : ∃ b, Block.Draft.build { links := [odd] } [] = .ok b :=
    Block.Draft.exists_build_iff.mpr ⟨by decide, by decide⟩
  have hgiven : odd.Given := by
    refine .inBlock (.built (List.forall_mem_singleton.mpr (.parsed hparse)) hb) ?_
    rw [(Block.Draft.frame_of_build hb).1]
    exact List.mem_singleton_self odd
  obtain ⟨-, -, -, -, hheader, hlength⟩ := hgiven.fits_frame
  exact ⟨hgiven, hheader.trans (by decide), hlength.trans (by decide)⟩

end Link

end ContentAddressed
