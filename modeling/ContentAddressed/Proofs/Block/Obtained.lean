import ContentAddressed.Proofs.Block.Convergent
import ContentAddressed.Proofs.FileTree.Levels

/-!
# Where blocks come from

Whichever way the library gives out a block, its name is a fingerprint of its own bytes.
-/

namespace ContentAddressed

open FileTree (Layout)

/-- The ways to a block: building, reading, deciphering, and cutting up a file. -/
inductive Block.Obtained : Block → Prop
  | built {d : Draft} {filler : Bytes} {b : Block} (h : d.build filler = .ok b) : Obtained b
  | parsed {a : DigestAlgorithm} {frame : Bytes} {b : Block} (h : parse a frame = .ok b) :
    Obtained b
  | deciphered {l : Link} {ciphertext : Bytes} {b : Block} (h : l.decrypt ciphertext = .ok b) :
    Obtained b
  | ofFile {l : Layout} {fillers : Fillers} {data : Bytes} {t : FileTree} {b : Block}
    (h : l.build fillers data = .ok t) (hb : b ∈ t.plaintext) : Obtained b

/-- The ways to an encrypted block: encrypting a block, building one from its parts, and cutting up
a file. -/
inductive SealedBlock.Obtained : SealedBlock → Prop
  | encrypted {b : Block} {config : CryptoConfig} {e : SealedBlock}
    (h : b.encrypt config = .ok e) : Obtained e
  | built {d : Draft} {e : SealedBlock} (h : d.build = .ok e) : Obtained e
  | ofFile {l : Layout} {fillers : Fillers} {data : Bytes} {t : FileTree} {e : SealedBlock}
    (h : l.build fillers data = .ok t) (he : e ∈ t.encrypted) : Obtained e

theorem Block.Sourced.isOf_frame {b : Block} (h : b.Sourced) : b.fingerprint.isOf b.frame := by
  rw [h.fingerprint_eq]
  exact Fingerprint.isOf_of _ _

theorem SealedBlock.Draft.eq_of_build {d : Draft} {e : SealedBlock} (h : d.build = .ok e) :
    d = ⟨some e.ciphertext, some e.name, some e.link, e.plaintextName⟩ := by
  obtain ⟨ciphertext, name, link, plain⟩ := d
  cases ciphertext with
  | none => cases h
  | some ciphertext =>
    cases name with
    | none => cases h
    | some name =>
      cases link with
      | none => cases h
      | some link =>
        obtain ⟨rfl, -⟩ := build_eq_ok_iff.mp h
        rfl

theorem SealedBlock.Draft.isOf_ciphertext_of_build {d : Draft} {e : SealedBlock}
    (h : d.build = .ok e) : e.name.isOf e.ciphertext := by
  rw [eq_of_build h] at h
  exact (build_eq_ok_iff.mp h).2.1

/-- What a link deciphers is the block of a frame, named with some algorithm. -/
theorem Link.exists_parse_of_decrypt {l : Link} {ciphertext : Bytes} {b : Block}
    (h : l.decrypt ciphertext = .ok b) : ∃ a frame, Block.parse a frame = .ok b := by
  obtain ⟨d, -, -, t, frame, -, -, hparse⟩ := decrypt_eq_ok_iff.mp h
  exact ⟨_, frame, hparse⟩

namespace FileTree

variable {l : Layout} {fillers : Fillers} {data : Bytes} {t : FileTree}

theorem isOf_frame_of_build (h : l.build fillers data = .ok t) {b : Block} (hb : b ∈ t.plaintext) :
    b.fingerprint.isOf b.frame := by
  obtain ⟨n, hn, hnb⟩ := List.mem_filterMap.mp hb
  obtain ⟨-, rfl⟩ : n.enclosed = none ∧ n.block = b := by simpa using hnb
  exact ((Layout.exists_spells_of_build h).1 n hn).isOf_frame

theorem isOf_ciphertext_of_build (h : l.build fillers data = .ok t) {e : SealedBlock}
    (he : e ∈ t.encrypted) : e.name.isOf e.ciphertext := by
  obtain ⟨n, hn, hne⟩ := List.mem_filterMap.mp he
  exact (((Layout.exists_spells_of_build h).1 n hn).encloses e hne).isOf_ciphertext

end FileTree

theorem Block.Obtained.isOf_frame {b : Block} (h : b.Obtained) : b.fingerprint.isOf b.frame := by
  cases h with
  | built h => exact (Sourced.built h).isOf_frame
  | parsed h => exact (Sourced.parsed h).isOf_frame
  | deciphered h =>
    obtain ⟨a, frame, hparse⟩ := Link.exists_parse_of_decrypt h
    exact (Sourced.parsed hparse).isOf_frame
  | ofFile h hb => exact FileTree.isOf_frame_of_build h hb

theorem SealedBlock.Obtained.isOf_ciphertext {e : SealedBlock} (h : e.Obtained) :
    e.name.isOf e.ciphertext := by
  cases h with
  | encrypted h => exact (Block.encloses_of_encrypt h).isOf_ciphertext
  | built h => exact Draft.isOf_ciphertext_of_build h
  | ofFile h he => exact FileTree.isOf_ciphertext_of_build h he

end ContentAddressed
