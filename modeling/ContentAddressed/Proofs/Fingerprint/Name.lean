import ContentAddressed.Proofs.Link.RoundTrip
import ContentAddressed.Proofs.Medium.Local
import ContentAddressed.Proofs.Medium.Path

/-!
# Names of blocks in directories and links

The text form of a fingerprint is a file directly in the directory of every disk, and the target of
a link that is built without any check. A key can be put on that link, and with or without one the
link is read back from its frame and leads to the fingerprint.
-/

namespace ContentAddressed

variable {fp : Fingerprint} {l : Link}

namespace Link

theorem build_encode (fp : Fingerprint) :
    Draft.build ⟨some fp.encode, none⟩ = .ok (ofFingerprint fp) := by
  obtain ⟨hne, hprint, -, hbody⟩ := valid_ofFingerprint fp
  exact Draft.build_eq_ok_iff.mpr ⟨hne, hprint, rfl, hbody, rfl⟩

theorem parse_frame_of_canonical (hvalid : l.Valid) (hcanonical : l.Canonical) :
    parse l.frame = .ok l := by
  rw [parse_frame hvalid, readBack_eq_self_iff.mpr hcanonical]

/-- A key that is no longer than those of the cipher can be put on a link to a fingerprint. -/
theorem exists_withKey (fp : Fingerprint) {key : SecretKey} (h : key.bytes.length ≤ 32) :
    ∃ l, (ofFingerprint fp).withKey key = .ok l ∧ l.target = fp.encode ∧
      l.decryption = some ⟨key.cipher.name, key.bytes, key.bytes.length * 8, [], 0⟩ := by
  obtain ⟨l, htarget, hbuild⟩ := exists_build_keyed fp key.cipher h
  obtain ⟨-, -, -, -, d, hd, hl⟩ := Draft.build_eq_ok_iff.mp hbuild
  obtain ⟨-, -, -, rfl⟩ := KeyMaterial.build_eq_ok_iff.mp hd
  exact ⟨l, hbuild, htarget, hl⟩

end Link

namespace Fingerprint

theorem accepts_encode (fp : Fingerprint) : Disk.accepts fp.encode := by
  have hcheck := fp.writable_encode.1
  rw [Disk.checkName] at hcheck
  split at hcheck
  · assumption
  · cases hcheck

/-- A disk has a path for every name, directly in its directory, and different ones for different
fingerprints. A link can be built to every name, as it is made without a check, and it takes every
key of the cipher; these links are read back from their frames and lead to the fingerprint. -/
theorem encode_is_name_everywhere (fp : Fingerprint) :
    (∀ d : Disk, ∃ path, d.pathOf fp.encode = .ok path ∧
      FilePath.ofText path = FilePath.ofText d.path ++ [.text fp.encode] ∧
      ∀ fp' path', d.pathOf fp'.encode = .ok path' → fp ≠ fp' →
        FilePath.ofText path ≠ FilePath.ofText path') ∧
    Link.Draft.build ⟨some fp.encode, none⟩ = .ok (.ofFingerprint fp) ∧
    Link.parse (Link.ofFingerprint fp).frame = .ok (.ofFingerprint fp) ∧
    (Link.ofFingerprint fp).fingerprint? = some fp ∧
    ∀ key : SecretKey, key.bytes.length ∈ [16, 24, 32] →
      ∃ l, (Link.ofFingerprint fp).withKey key = .ok l ∧ l.target = fp.encode ∧
        l.decryption = some ⟨key.cipher.name, key.bytes, key.bytes.length * 8, [], 0⟩ ∧
        Link.parse l.frame = .ok l ∧ l.fingerprint? = some fp := by
  refine ⟨fun d => ?_, Link.build_encode fp, ?_, Link.fingerprint?_eq_some rfl, fun key hkey => ?_⟩
  · obtain ⟨path, hpath, hplace⟩ := d.exists_pathOf fp.accepts_encode
    refine ⟨path, hpath, hplace, fun fp' path' hpath' hne hsame => ?_⟩
    obtain ⟨other, hother, hplace'⟩ := d.exists_pathOf fp'.accepts_encode
    obtain rfl := Except.ok.inj (hpath'.symm.trans hother)
    rw [hplace, hplace', List.append_cancel_left_eq, List.singleton_inj, FileName.text.injEq]
      at hsame
    exact hne (encode_injective hsame)
  · exact Link.parse_frame_of_canonical (Link.valid_ofFingerprint fp)
      (Link.canonical_ofFingerprint fp)
  · have hshort : key.bytes.length ≤ 32 := by
      simp only [List.mem_cons, List.not_mem_nil, or_false] at hkey
      omega
    obtain ⟨l, hl, htarget, hdecryption⟩ := Link.exists_withKey fp hshort
    exact ⟨l, hl, htarget, hdecryption, Link.parse_frame_of_canonical
      (Link.Draft.valid_of_build hl) (Link.canonical_withKey hl), Link.fingerprint?_eq_some htarget⟩

/-- A digest whose text form has plus signs and a filling, a directory with a slash at its end, and
a key of twenty-four bytes. -/
theorem encode_is_name_everywhere_plus :
    let fp : Fingerprint := ⟨.sha1, List.replicate 20 255, by decide⟩
    let key := SecretKey.make .chaining (List.replicate 24 7) .sha256
    fp.encode = "sha-1:++++++++++++++++++++++++++8=" ∧
    (∃ path, (Disk.mk "a/" 0 []).pathOf fp.encode = .ok path ∧
      FilePath.ofText path = [.text "a", .text fp.encode]) ∧
    key.bytes.length ∈ [16, 24, 32] ∧
      ∃ l, (Link.ofFingerprint fp).withKey key = .ok l ∧ Link.parse l.frame = .ok l ∧
        l.fingerprint? = some fp := by
  intro fp key
  obtain ⟨hfiles, -, -, -, hkeys⟩ := encode_is_name_everywhere fp
  obtain ⟨path, hpath, hplace, -⟩ := hfiles ⟨"a/", 0, []⟩
  have hdirectory : FilePath.ofText "a/" = [.text "a"] := by decide
  obtain ⟨l, hl, -, -, hparse, htarget⟩ := hkeys key (by decide)
  exact ⟨by decide, ⟨path, hpath, hplace.trans (by rw [hdirectory]; rfl)⟩, by decide, l, hl, hparse,
    htarget⟩

end Fingerprint

end ContentAddressed
