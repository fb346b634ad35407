import ContentAddressed.Proofs.Block.Frame
import ContentAddressed.Proofs.Walk.Assemble
import ContentAddressed.Proofs.Walk.Reached
import ContentAddressed.Proofs.Walk.Recursive
import ContentAddressed.Store.Fetch

/-!
# When a result can be assembled

Assembling goes down every way from a name, and gives up on a way that is not opened or that comes
back to itself. So it succeeds exactly where all that the name reaches are blocks and no way among
them is a cycle. For the root of a walk that is the whole result.
-/

namespace ContentAddressed

namespace WalkResult

variable {r : WalkResult} {path path' : List String} {a b name : String} {out : Bytes} {e : Error}

/-- Everything that is reached from a name is a block, and none of it lies on a cycle. -/
def Whole (r : WalkResult) (name : String) : Prop :=
  ∀ other, r.Reaches name other →
    (r.block? other).isSome ∧ ¬ Relation.TransGen r.LinksTo other other

theorem contentBelow_of_none (h : r.find? name = none) :
    r.contentBelow path name = .error (.invalidArgument (.notFetched name)) := by
  rw [contentBelow]
  split
  · rfl
  · next hfound => cases h.symm.trans hfound
  · next hfound => cases h.symm.trans hfound

theorem contentBelow_of_locked {v : StoredBytes} (h : r.find? name = some (.locked v)) :
    r.contentBelow path name = .error (.invalidArgument (.notDecrypted name)) := by
  rw [contentBelow]
  split
  · next hfound => cases h.symm.trans hfound
  · rfl
  · next hfound => cases h.symm.trans hfound

theorem contentBelow_of_mem {block : Block} (h : r.find? name = some (.block block))
    (hpath : name ∈ path) :
    r.contentBelow path name = .error (.invalidArgument (.cycle name)) := by
  rw [contentBelow]
  split
  · next hfound => cases h.symm.trans hfound
  · next hfound => cases h.symm.trans hfound
  · exact dif_pos hpath

theorem contentBelow_eq_ok_iff :
    r.contentBelow path name = .ok out ↔ name ∉ path ∧ ∃ block parts,
      r.block? name = some block ∧
        List.Forall₂ (fun l part => r.contentBelow (name :: path) l.target = .ok part)
          block.links parts ∧ out = block.content ++ parts.flatten := by
  constructor
  · intro h
    match hfound : r.find? name with
    | none => cases (contentBelow_of_none hfound).symm.trans h
    | some (.locked v) => cases (contentBelow_of_locked hfound).symm.trans h
    | some (.block block) =>
      by_cases hpath : name ∈ path
      · cases (contentBelow_of_mem hfound hpath).symm.trans h
      · rw [contentBelow_of_block hfound hpath, Result.bind_eq_ok_iff] at h
        obtain ⟨parts, hparts, hout⟩ := h
        exact ⟨hpath, block, parts, block?_eq_some_iff.mpr hfound,
          Result.mapM_eq_ok_iff.mp hparts, (Result.pure_eq_ok_iff.mp hout).symm⟩
  · rintro ⟨hpath, block, parts, hblock, hparts, rfl⟩
    exact contentBelow_eq_ok (block?_eq_some_iff.mp hblock) hpath hparts

/-- Whatever keeps a name from being assembled, the failure is that of an argument. -/
theorem invalidArgument_of_contentBelow (h : r.contentBelow path name = .error e) :
    ∃ cause, e = .invalidArgument cause := by
  induction path, name using contentBelow.induct r generalizing e with
  | case1 path name hfound =>
    rw [contentBelow_of_none hfound] at h
    exact ⟨_, (Except.error.inj h).symm⟩
  | case2 path name v hfound =>
    rw [contentBelow_of_locked hfound] at h
    exact ⟨_, (Except.error.inj h).symm⟩
  | case3 path name block hfound hpath =>
    rw [contentBelow_of_mem hfound hpath] at h
    exact ⟨_, (Except.error.inj h).symm⟩
  | case4 path name block hfound hpath ih =>
    rw [contentBelow_of_block hfound hpath] at h
    cases hparts : block.links.mapM fun l => r.contentBelow (name :: path) l.target with
    | ok parts =>
      rw [hparts] at h
      cases h
    | error e' =>
      rw [hparts] at h
      obtain rfl := Except.error.inj h
      obtain ⟨l, -, hl⟩ := Result.exists_of_mapM_eq_error hparts
      exact ih l hl

theorem contentBelow_of_subset (h : r.contentBelow path name = .ok out) (hsub : path' ⊆ path) :
    r.contentBelow path' name = .ok out := by
  induction path, name using contentBelow.induct r generalizing path' out with
  | case1 path name hfound => cases (contentBelow_of_none hfound).symm.trans h
  | case2 path name v hfound => cases (contentBelow_of_locked hfound).symm.trans h
  | case3 path name block hfound hpath => cases (contentBelow_of_mem hfound hpath).symm.trans h
  | case4 path name block hfound hpath ih =>
    obtain ⟨-, block', parts, hblock, hparts, rfl⟩ := contentBelow_eq_ok_iff.mp h
    have hparts' := hparts.imp fun l part hl => ih l hl (List.cons_subset_cons name hsub)
    exact contentBelow_eq_ok_iff.mpr
      ⟨fun hmem => hpath (hsub hmem), block', parts, hblock, hparts', rfl⟩

/-! ## Ways that can be assembled -/

theorem LinksTo.contentBelow (h : r.LinksTo a b) (ha : r.contentBelow path a = .ok out) :
    ∃ part, r.contentBelow (a :: path) b = .ok part := by
  obtain ⟨-, block, parts, hblock, hparts, -⟩ := contentBelow_eq_ok_iff.mp ha
  obtain ⟨block', hblock', l, hl, rfl⟩ := h
  obtain rfl := Option.some.inj (hblock.symm.trans hblock')
  exact Result.exists_of_mem hparts hl

/-- Along any way, a name is assembled with the start of the way on its path. -/
theorem contentBelow_of_transGen (h : Relation.TransGen r.LinksTo a b)
    (ha : r.contentBelow path a = .ok out) :
    ∃ path' part, a ∈ path' ∧ r.contentBelow path' b = .ok part := by
  induction h with
  | single hlink =>
    obtain ⟨part, hpart⟩ := hlink.contentBelow ha
    exact ⟨a :: path, part, List.mem_cons_self, hpart⟩
  | @tail c d _ hlink ih =>
    obtain ⟨path', part, hmem, hpart⟩ := ih
    obtain ⟨part', hpart'⟩ := hlink.contentBelow hpart
    exact ⟨c :: path', part', List.mem_cons_of_mem c hmem, hpart'⟩

theorem whole_of_contentBelow (h : r.contentBelow path name = .ok out) : r.Whole name := by
  intro other hreaches
  obtain ⟨path', part, hpart⟩ : ∃ path' part, r.contentBelow path' other = .ok part := by
    rcases Relation.reflTransGen_iff_eq_or_transGen.mp hreaches with rfl | htrans
    · exact ⟨path, out, h⟩
    · obtain ⟨path', part, -, hpart⟩ := contentBelow_of_transGen htrans h
      exact ⟨path', part, hpart⟩
  constructor
  · obtain ⟨-, block, -, hblock, -⟩ := contentBelow_eq_ok_iff.mp hpart
    rw [hblock]
    rfl
  · intro hcycle
    obtain ⟨path'', part', hmem, hpart'⟩ := contentBelow_of_transGen hcycle hpart
    exact (contentBelow_eq_ok_iff.mp hpart').1 hmem

theorem Whole.linksTo (h : r.Whole a) (hlink : r.LinksTo a b) : r.Whole b :=
  fun other hreaches => h other (.head hlink hreaches)

/-- A whole name is assembled, unless it leads back to a name on the way to it. -/
theorem Whole.exists_contentBelow (h : r.Whole name) (hback : ∀ a ∈ path, ¬ r.Reaches name a) :
    ∃ out, r.contentBelow path name = .ok out := by
  have hself := (h name .refl).1
  induction path, name using contentBelow.induct r with
  | case1 path name hfound => simp [block?, hfound] at hself
  | case2 path name v hfound => simp [block?, hfound, Found.block?] at hself
  | case3 path name block hfound hpath => exact absurd .refl (hback name hpath)
  | case4 path name block hfound hpath ih =>
    have hblock := block?_eq_some_iff.mpr hfound
    have hbelow : ∀ l ∈ block.links,
        ∃ part, r.contentBelow (name :: path) l.target = .ok part := by
      intro l hl
      have hlink : r.LinksTo name l.target := ⟨block, hblock, l, hl, rfl⟩
      have hwhole := h.linksTo hlink
      refine ih l hwhole ?_ (hwhole l.target .refl).1
      rw [List.forall_mem_cons]
      -- a way back to the name would close a cycle, one back to its path leads there from the name
      exact ⟨fun hreaches => (h name .refl).2 (.head' hlink hreaches),
        fun a ha hreaches => hback a ha (.head hlink hreaches)⟩
    obtain ⟨parts, hparts⟩ := Result.exists_forall₂ hbelow
    exact ⟨_, contentBelow_eq_ok_iff.mpr ⟨hpath, block, parts, hblock, hparts, rfl⟩⟩

theorem exists_assemble_iff : (∃ out, r.assemble name = .ok out) ↔ r.Whole name :=
  ⟨fun ⟨_, h⟩ => whole_of_contentBelow h, fun h => h.exists_contentBelow (by simp)⟩

/-- What is assembled is the content of the block, and then what is assembled for each of its links
in order. -/
theorem parts_of_assemble (h : r.assemble name = .ok out) :
    ∃ block parts, r.block? name = some block ∧
      List.Forall₂ (fun l part => r.assemble l.target = .ok part) block.links parts ∧
        out = block.content ++ parts.flatten := by
  obtain ⟨-, block, parts, hblock, hparts, hout⟩ := contentBelow_eq_ok_iff.mp h
  exact ⟨block, parts, hblock,
    hparts.imp fun l part hl => contentBelow_of_subset hl (List.nil_subset _), hout⟩

theorem invalidArgument_of_not_whole (h : ¬ r.Whole name) :
    ∃ cause, r.assemble name = .error (.invalidArgument cause) := by
  cases hout : r.assemble name with
  | ok out => exact absurd (exists_assemble_iff.mp ⟨out, hout⟩) h
  | error e =>
    obtain ⟨cause, rfl⟩ := invalidArgument_of_contentBelow hout
    exact ⟨cause, rfl⟩

/-! ## The result of a walk -/

theorem Reaches.contains (hclosed : ∀ e ∈ r.entries, ∀ l ∈ e.2.links, r.contains l.target)
    (ha : r.contains a) (h : r.Reaches a b) : r.contains b := by
  cases Relation.ReflTransGen.cases_tail h with
  | inl hsame => rwa [hsame]
  | inr hlink =>
    obtain ⟨c, -, block, hblock, l, hl, rfl⟩ := hlink
    exact hclosed _ (mem_entries_of_find? (block?_eq_some_iff.mp hblock)) l hl

/-- A name that leads to all entries, and to nothing else, is whole if there is no closed entry and
no cycle in the result. -/
theorem whole_iff_of_reaches_all (hnodup : r.names.Nodup) (hname : r.contains name)
    (hclosed : ∀ e ∈ r.entries, ∀ l ∈ e.2.links, r.contains l.target)
    (hall : ∀ other ∈ r.names, r.Reaches name other) :
    r.Whole name ↔ r.lockedNames = [] ∧ ∀ other, ¬ Relation.TransGen r.LinksTo other other := by
  constructor
  · intro h
    refine ⟨List.eq_nil_iff_forall_not_mem.mpr fun other hlocked => ?_, fun other hcycle => ?_⟩
    · obtain ⟨v, hmem⟩ := mem_lockedNames_iff.mp hlocked
      have hsome := (h other (hall other (List.mem_map_of_mem hmem))).1
      simp [block?, find?_of_mem hnodup hmem, Found.block?] at hsome
    · obtain ⟨next, hlink, -⟩ := Relation.TransGen.head'_iff.mp hcycle
      exact (h other (hall other (contains_iff.mp hlink.contains))).2 hcycle
  · rintro ⟨hlocked, hcycle⟩ other hreaches
    refine ⟨?_, hcycle other⟩
    obtain ⟨f, hfound⟩ := Option.isSome_iff_exists.mp (hreaches.contains hclosed hname)
    cases f with
    | block block => simp [block?_eq_some_iff.mpr hfound]
    | locked v =>
      have hmem := mem_lockedNames_iff.mpr ⟨v, mem_entries_of_find? hfound⟩
      simp [hlocked] at hmem

end WalkResult

namespace Walker

variable {σ : Type} {w : Walker σ} {root : Link} {store store' : σ} {r : WalkResult}

/-- Below the root, what a walk returned is assembled exactly if it opened everything and its blocks
form no cycle; below any other name, exactly if what that name reaches are blocks that lie on no
cycle. Assembled are the content of the block and then, in order, what is assembled for each of its
links, once for every occurrence. Anything else fails with an invalid argument. -/
theorem assemble_of_fetch {hs : w.Halts (.start root) store}
    (h : w.fetch root store hs = (.ok r, store')) :
    ((∃ out, r.assemble root.target = .ok out) ↔
      r.lockedNames = [] ∧ ∀ name, ¬ Relation.TransGen r.LinksTo name name) ∧
    ∀ name,
      ((∃ out, r.assemble name = .ok out) ↔ ∀ other, r.Reaches name other →
        (r.block? other).isSome ∧ ¬ Relation.TransGen r.LinksTo other other) ∧
      (∀ out, r.assemble name = .ok out → ∃ block parts, r.block? name = some block ∧
        List.Forall₂ (fun l part => r.assemble l.target = .ok part) block.links parts ∧
          out = block.content ++ parts.flatten) ∧
      ((∃ out, r.assemble name = .ok out) ∨
        ∃ cause, r.assemble name = .error (.invalidArgument cause)) := by
  obtain ⟨hnodup, hreached⟩ := joined_of_fetch h
  have hfollowed := followed_of_fetch h
  have hroot := WalkResult.whole_iff_of_reaches_all hnodup (hfollowed root (Or.inl rfl))
    (fun e he l hl => hfollowed l (Or.inr ⟨e, he, hl⟩)) hreached
  refine ⟨WalkResult.exists_assemble_iff.trans hroot, fun name =>
    ⟨WalkResult.exists_assemble_iff, fun out => WalkResult.parts_of_assemble, ?_⟩⟩
  by_cases hwhole : r.Whole name
  · exact Or.inl (WalkResult.exists_assemble_iff.mpr hwhole)
  · exact Or.inr (WalkResult.invalidArgument_of_not_whole hwhole)

/-- A root with two links to one child: its content is assembled twice. -/
theorem assemble_of_fetch_twice :
    let c : Link := ⟨"c", none⟩
    let root : Link := ⟨"r", none⟩
    let frame : Bytes := Block.head 6 [] 1 ++ ([2] ++ List.replicate 47 0)
    let top : Bytes := Block.head 6 [c, c] 1 ++ ([1] ++ List.replicate 13 0)
    let w : Walker (Store Backing) := Store.walker none none
    let s : Store Backing := .plain (.memory ⟨[("c", frame), ("r", top)]⟩)
    ∃ (hs : w.Halts (.start root) s) (r : WalkResult), w.fetch root s hs = (.ok r, s) ∧
      r.lockedNames = [] ∧ (∀ name, ¬ Relation.TransGen r.LinksTo name name) ∧
        r.assemble root.target = .ok [1, 2, 2] := by
  intro c root frame top w s
  let block : Block := ⟨[], [2], frame, Fingerprint.of c.digestAlgorithm frame⟩
  let first : Block := ⟨[c, c], [1], top, Fingerprint.of root.digestAlgorithm top⟩
  have hvalid : ∀ l ∈ [c, c], l.Valid ∧ l.Canonical := by
    have hc : c.Valid ∧ c.Canonical :=
      ⟨⟨by decide, by decide, by simp [c], by decide⟩, by simp [Link.Canonical, c]⟩
    simpa using hc
  have hblock : w.read c s = (.ok (.block block), s) := by
    refine read_of_openBytes? (v := ⟨frame, false⟩) rfl (by decide) (Link.openBytes?_of_parse ?_)
    exact Block.parse_eq_ok_iff.mpr ⟨6, List.replicate 47 0, by decide, by decide, by decide,
      by decide, by simp [block], rfl, rfl, rfl⟩
  have hfirst : w.read root s = (.ok (.block first), s) := by
    refine read_of_openBytes? (v := ⟨top, false⟩) rfl (by decide) (Link.openBytes?_of_parse ?_)
    exact Block.parse_eq_ok_iff.mpr ⟨6, List.replicate 13 0, by decide, by decide, by decide,
      by decide, hvalid, rfl, rfl, rfl⟩
  let r : WalkResult := ⟨[("r", .block first), ("c", .block block)]⟩
  have hvisit : w.Visit root {} s (.ok r, s) :=
    .enter (by decide) hfirst
      (.cons (.enter (by decide) hblock .nil)
        (.cons (.known (WalkResult.contains_iff.mpr (by simp [c]))) .nil))
  obtain ⟨hs, hfetch⟩ := (visit_iff_fetch rfl).mp hvisit
  obtain ⟨hroot, hparts⟩ := assemble_of_fetch hfetch
  have hlinks {a b : String} (h : r.LinksTo a b) : a = "r" ∧ b = "c" := by
    obtain ⟨b', hb', l, hl, rfl⟩ := h
    have hmem := WalkResult.mem_entries_of_find? (WalkResult.block?_eq_some_iff.mp hb')
    simp only [r, List.mem_cons, Prod.mk.injEq, Found.block.injEq, List.not_mem_nil,
      or_false] at hmem
    rcases hmem with ⟨rfl, rfl⟩ | ⟨rfl, rfl⟩
    · obtain rfl : l = c := by simpa [first] using hl
      exact ⟨rfl, rfl⟩
    · cases hl
  have hcycle : ∀ name, ¬ Relation.TransGen r.LinksTo name name := by
    intro name hname
    obtain ⟨next, hnext, -⟩ := Relation.TransGen.head'_iff.mp hname
    obtain ⟨last, -, hlast⟩ := Relation.TransGen.tail'_iff.mp hname
    exact absurd ((hlinks hnext).1.symm.trans (hlinks hlast).2) (by decide)
  obtain ⟨out, hout⟩ := hroot.mpr ⟨rfl, hcycle⟩
  have hchild {part : Bytes} (h : r.assemble c.target = .ok part) : part = [2] := by
    obtain ⟨b, parts, hb, hbelow, rfl⟩ := (hparts _).2.1 _ h
    obtain rfl : block = b := Option.some.inj hb
    cases hbelow
    rfl
  refine ⟨hs, r, hfetch, rfl, hcycle, ?_⟩
  obtain ⟨b, parts, hb, hbelow, hall⟩ := (hparts _).2.1 _ hout
  obtain rfl : first = b := Option.some.inj hb
  obtain ⟨one, _, hone, htail, rfl⟩ := List.forall₂_cons_left_iff.mp hbelow
  obtain ⟨two, _, htwo, hnil, rfl⟩ := List.forall₂_cons_left_iff.mp htail
  cases hnil
  rw [hout, hall, hchild hone, hchild htwo]
  rfl

end Walker

end ContentAddressed
